/-!
# Input models

An input model bounds how many bytes a program may read and says what a read
finds when the input is exhausted. A concrete run applies it to a stream; the
state space of a program asks it which bytes a read could produce.
-/

namespace TapeReach

/-- How reads behave. -/
structure InputModel where
  /-- Number of bytes that can be read, unlimited if absent. -/
  maxReads : Option Nat := none
  /-- The byte stored by a read of exhausted input. -/
  eofByte : UInt8 := 0
  /-- A read of exhausted input leaves the cell alone instead. -/
  noChangeOnEof : Bool := false
  deriving DecidableEq

/-- The bytes that one read could produce. -/
inductive PossibleReads where
  /-- Each of the 256 bytes. -/
  | any
  /-- Only the byte for exhausted input. -/
  | eof (byte : UInt8)
  /-- No byte at all: the read never completes. -/
  | blocked
  deriving DecidableEq

/-- What a read could produce with the given number of reads left. -/
def InputModel.possibleReads (model : InputModel) : Option Nat → PossibleReads
  | none | some (_ + 1) => .any
  | some 0 => if model.noChangeOnEof then .blocked else .eof model.eofByte

namespace PossibleReads

/-- The bytes, ascending. -/
def toList : PossibleReads → List UInt8
  | any => (List.range 256).map UInt8.ofNat
  | eof byte => [byte]
  | blocked => []

/-- Number of bytes. -/
def size : PossibleReads → Nat
  | any => 256
  | eof _ => 1
  | blocked => 0

/-- Whether there is no byte. -/
def isEmpty : PossibleReads → Bool
  | blocked => true
  | _ => false

/-- Whether a byte is possible. -/
def contains : PossibleReads → UInt8 → Bool
  | any, _ => true
  | eof byte, b => byte == b
  | blocked, _ => false

end PossibleReads

end TapeReach
