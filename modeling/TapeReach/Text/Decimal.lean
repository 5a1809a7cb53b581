/-!
# Reading whole numbers

A whole number is written with the digits `0` to `9`, at least one of them,
after an optional sign. Leading zeros are allowed and a number must be below
a bound.
-/

namespace TapeReach.Text

/-- The number below `10` that a character stands for. -/
def digit? (c : Char) : Option Nat :=
  if '0' ≤ c ∧ c ≤ '9' then some (c.toNat - '0'.toNat) else none

/-- The number that a list of digits stands for, with `high` in front of them. -/
def digitsFrom? : (high : Nat) → List Char → Option Nat
  | high, [] => some high
  | high, c :: rest => (digit? c).bind fun d => digitsFrom? (10 * high + d) rest

/-- The number that at least one digit stands for. -/
def digits? : List Char → Option Nat
  | [] => none
  | text => digitsFrom? 0 text

/-- A number without sign or with a plus sign, below `bound`. -/
def natural? (bound : Nat) (text : String) : Option Nat :=
  let digits := match text.toList with
    | '+' :: rest => rest
    | text => text
  (digits? digits).filter (· < bound)

/-- A number with an optional sign that is not negative and below `bound`; a minus sign
is allowed in front of zero. -/
def signed? (bound : Nat) (text : String) : Option Nat :=
  match text.toList with
  | '-' :: rest => (digits? rest).filter (· = 0)
  | _ => natural? bound text

/-- Bound of the numbers that fit into a byte. -/
def byteBound : Nat := Nat.pow 2 8

/-- Bound of the numbers that fit into a word. -/
def wordBound : Nat := Nat.pow 2 64

end TapeReach.Text
