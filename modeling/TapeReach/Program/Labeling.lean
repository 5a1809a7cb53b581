import Std.Data.HashMap
import TapeReach.CheckError
import TapeReach.Program.Basic
import TapeReach.State.Basic

/-!
# Propositions

Each distinct label name of a program is one proposition. One pass over the
labels numbers the names by first occurrence and fills three tables: the name
of each number, the number of each name, and the numbers at each position.
Numbers are words of 32 bits. A proposition holds in a state when its number
is noted at the program position of that state; tape and input play no part.
Positions behind the halting position satisfy nothing, although their names
are numbered too.
-/

namespace TapeReach

/-- The propositions of a program and where they hold. -/
structure Labeling where
  /-- The name of each proposition. -/
  names : Array String
  /-- The number of each name. -/
  byName : Std.HashMap String UInt32
  /-- The propositions at each position up to the halting position, without repeats. -/
  byPosition : Array (List UInt32)
  /-- The number of a name is that of a proposition. -/
  numbered : ∀ (name : String) (id : UInt32), byName[name]? = some id → id.toNat < names.size

/-- The positions at which one label holds. -/
structure Target where
  /-- Name of the label. -/
  name : String
  /-- Whether it holds, for each position up to the halting position. -/
  positions : Array Bool

namespace Target

/-- Whether the label holds at a position. -/
def holdsAt (target : Target) (pc : Nat) : Bool := (target.positions[pc]?).getD false

/-- Whether the label holds in a state. -/
def holds (target : Target) (s : State) : Bool := target.holdsAt s.pc

/-- The positions at which the label holds, ascending. -/
def toList (target : Target) : List Nat :=
  (List.range target.positions.size).filter target.holdsAt

end Target

namespace Labeling

/-- No propositions, with room for some positions. -/
def empty (positions : Nat) : Labeling where
  names := #[]
  byName := ∅
  byPosition := Array.replicate positions []
  numbered name id h := by
    rw [Std.HashMap.getElem?_empty] at h
    cases h

/-- The number for the next new name. -/
def nextNumber (labeling : Labeling) : UInt32 := labeling.names.size.toUInt32

/-- A word of 32 bits is at most the number that it was made from. -/
theorem nextNumber_le (labeling : Labeling) : labeling.nextNumber.toNat ≤ labeling.names.size := by
  rw [nextNumber, Nat.toUInt32_eq, UInt32.toNat_ofNat']
  exact Nat.mod_le _ _

/-- Number a new name. -/
def add (labeling : Labeling) (name : String) : Labeling where
  names := labeling.names.push name
  byName := labeling.byName.insert name labeling.nextNumber
  byPosition := labeling.byPosition
  numbered other id h := by
    rw [Std.HashMap.getElem?_insert] at h
    rw [Array.size_push]
    split at h
    · cases h
      exact Nat.lt_succ_of_le labeling.nextNumber_le
    · exact Nat.lt_succ_of_lt (labeling.numbered other id h)

/-- Note a number at a position, unless it stands there. -/
def note (labeling : Labeling) (pc : Nat) (id : UInt32) : Labeling :=
  { labeling with
    byPosition := labeling.byPosition.modify pc fun ids =>
      if ids.contains id then ids else ids ++ [id] }

/-- Enter a name at a position into the tables. -/
def attach (pc : Nat) (labeling : Labeling) (name : String) : Labeling :=
  match labeling.byName[name]? with
  | some id => labeling.note pc id
  | none => (labeling.add name).note pc labeling.nextNumber

/-- The propositions of a program. -/
def ofProgram (program : Program) : Labeling :=
  program.labels.toList.foldl (fun labeling entry => entry.2.foldl (attach entry.1) labeling)
    (empty (program.size + 1))

/-- The number of a name. -/
def lookup? (labeling : Labeling) (name : String) : Option UInt32 := labeling.byName[name]?

/-- The name of a proposition. -/
def name? (labeling : Labeling) (id : UInt32) : Option String := labeling.names[id.toNat]?

/-- The propositions that hold at a position. -/
def propositionsAt (labeling : Labeling) (pc : Nat) : List UInt32 :=
  (labeling.byPosition[pc]?).getD []

/-- Whether a proposition holds at a position. -/
def holds (labeling : Labeling) (id : UInt32) (pc : Nat) : Bool :=
  (labeling.propositionsAt pc).contains id

/-- Every proposition with its truth value at a position. -/
def valuation (labeling : Labeling) (pc : Nat) : List (String × Bool) :=
  labeling.names.toList.zipIdx.map fun entry => (entry.1, labeling.holds entry.2.toUInt32 pc)

/-- The positions of a label. -/
def target (labeling : Labeling) (label : String) : Except CheckError Target :=
  match h : labeling.byName[label]? with
  | some id =>
    have hid : id.toNat < labeling.names.size := labeling.numbered label id h
    .ok ⟨labeling.names[id.toNat], labeling.byPosition.map (·.contains id)⟩
  | none => .error (.unknownLabel label)

end Labeling

end TapeReach
