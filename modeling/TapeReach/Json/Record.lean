import TapeReach.Json.Reader

/-!
# Reading records

A record is written as an object or as the list of its fields in order. In an
object the fields may stand in any order, each at most once; a record may or
may not tolerate fields it does not know. A list may not be too long. Fields
that an object leaves out are told apart from those at which a list ends.
-/

namespace TapeReach.Json.Reading

/-- What a record says about one of its fields. -/
inductive Slot where
  /-- The value of the field. -/
  | given (value : Reading)
  /-- The object has no such field. -/
  | omitted
  /-- The list ended before the field. -/
  | cutOff

/-- A field of an object, refusing one that is given twice. -/
def slot? (fields : List (String × Reading)) (name : String) : Option Slot :=
  match fields.filter (·.1 == name) with
  | [] => some .omitted
  | [field] => some (.given field.2)
  | _ => none

/-- The fields of a record in the order of `names`. -/
def slots? (names : List String) (tolerant : Bool) : Reading → Option (List Slot)
  | object fields => do
    let named ← fields.mapM fun field => field.1.map (·, field.2)
    if tolerant || named.all (fun field => names.contains field.1) then
      names.mapM (slot? named)
    else none
  | array items =>
    if items.length ≤ names.length then
      some (items.map .given ++ List.replicate (names.length - items.length) .cutOff)
    else none
  | _ => none

namespace Slot

variable {α : Type}

/-- A field that has to be given. -/
def required (read : Reading → Option α) : Slot → Option α
  | given value => read value
  | omitted | cutOff => none

/-- A field that an object may leave out and that may be `null`. -/
def nullable (read : Reading → Option (Option α)) : Slot → Option (Option α)
  | given value => read value
  | omitted => some none
  | cutOff => none

/-- A field with a value to fall back on. -/
def orElse (fallback : α) (read : Reading → Option α) : Slot → Option α
  | given value => read value
  | omitted | cutOff => some fallback

end Slot

/-- A truth value. -/
def bool? : Reading → Option Bool
  | bool value => some value
  | _ => none

/-- A whole number below a bound. -/
def natural? (bound : Nat) : Reading → Option Nat
  | natural n => if n < bound then some n else none
  | _ => none

/-- A text. -/
def text? : Reading → Option String
  | text value => value
  | _ => none

/-- A value or `null`. -/
def orNull? {α : Type} (read : Reading → Option α) : Reading → Option (Option α)
  | null => some none
  | value => (read value).map some

/-- A choice without data: its name, or an object that gives the name `null`. -/
def choice? : Reading → Option String
  | text value => value
  | object [(name, null)] => name
  | _ => none

end TapeReach.Json.Reading
