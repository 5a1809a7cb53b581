import Std.Data.ExtTreeMap

/-!
# The tape of a concrete run

A tape is a row of cells of one width with a pointer. Only cells that are not
zero are stored; every other cell reads as zero, also beyond the end of the
tape, where the pointer never goes.
-/

namespace TapeReach

/-- Width of a tape cell. -/
inductive CellWidth where
  /-- Cells hold `0` to `255`. -/
  | bits8
  /-- Cells hold `0` to `65535`. -/
  | bits16
  /-- Cells hold `0` to `4294967295`. -/
  | bits32
  deriving DecidableEq

namespace CellWidth

/-- Number of bits. -/
def bits : CellWidth → Nat
  | bits8 => 8
  | bits16 => 16
  | bits32 => 32

/-- The width with a number of bits. -/
def ofBits? : Nat → Option CellWidth
  | 8 => some bits8
  | 16 => some bits16
  | 32 => some bits32
  | _ => none

/-- The greatest value of a cell. -/
def maxValue : CellWidth → UInt32
  | bits8 => 0xFF
  | bits16 => 0xFFFF
  | bits32 => 0xFFFFFFFF

/-- Keep the bits that fit into a cell. -/
def truncate (width : CellWidth) (value : UInt32) : UInt32 := value &&& width.maxValue

end CellWidth

/-- Number of cells of a tape unless chosen otherwise. -/
def defaultTapeLength : Nat := 30000

/-- The shape of a tape. -/
structure MemoryModel where
  /-- Width of each cell. -/
  width : CellWidth := .bits8
  /-- Number of cells. -/
  length : Nat := defaultTapeLength
  /-- Whether the pointer goes around at the ends; otherwise it stays there. -/
  wrapping : Bool := true
  deriving DecidableEq

/-- A memory model with at least one cell. -/
def MemoryModel.ofLength (width : CellWidth) (length : Nat) (wrapping : Bool) : MemoryModel :=
  ⟨width, max length 1, wrapping⟩

/-- A tape with its pointer. -/
structure Tape where
  /-- The shape of the tape. -/
  model : MemoryModel
  /-- Position of the current cell. -/
  pointer : Nat := 0
  /-- The cells that are not zero. -/
  cells : Std.ExtTreeMap Nat UInt32 := ∅
  deriving DecidableEq

namespace Tape

/-- The tape with all cells zero and the pointer on the first. -/
def blank (model : MemoryModel) : Tape := ⟨model, 0, ∅⟩

/-- Value of a cell. -/
def get (tape : Tape) (position : Nat) : UInt32 := (tape.cells[position]?).getD 0

/-- Value of the cell under the pointer. -/
def current (tape : Tape) : UInt32 := tape.get tape.pointer

/-- Store a value, cut to the cell width. -/
def set (tape : Tape) (position : Nat) (value : UInt32) : Tape :=
  let value := tape.model.width.truncate value
  { tape with
    cells := if value = 0 then tape.cells.erase position else tape.cells.insert position value }

/-- Store a value in the cell under the pointer. -/
def setCurrent (tape : Tape) (value : UInt32) : Tape := tape.set tape.pointer value

/-- Clear the tape and go to its first cell. -/
def reset (tape : Tape) : Tape := blank tape.model

/-- Move the pointer to the left. -/
def left (tape : Tape) : Tape :=
  if 0 < tape.pointer then { tape with pointer := tape.pointer - 1 }
  else if tape.model.wrapping then { tape with pointer := tape.model.length - 1 }
  else tape

/-- Move the pointer to the right. -/
def right (tape : Tape) : Tape :=
  if tape.pointer + 1 < tape.model.length then { tape with pointer := tape.pointer + 1 }
  else if tape.model.wrapping then { tape with pointer := 0 }
  else tape

/-- Add one to the current cell; the greatest value is followed by zero. -/
def increment (tape : Tape) : Tape :=
  let value := tape.current
  tape.setCurrent (if value = tape.model.width.maxValue then 0 else value + 1)

/-- Subtract one from the current cell; zero is followed by the greatest value. -/
def decrement (tape : Tape) : Tape :=
  let value := tape.current
  tape.setCurrent (if value = 0 then tape.model.width.maxValue else value - 1)

/-- The cells that are not zero, ascending. -/
def toList (tape : Tape) : List (Nat × UInt32) := tape.cells.toList

end Tape

end TapeReach
