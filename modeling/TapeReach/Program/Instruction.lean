/-!
# Tape instructions

The eight instructions of the language and the characters that stand for
them. Every other character of a program text is a comment.
-/

namespace TapeReach

/-- One instruction of a tape program. -/
inductive Instruction where
  /-- Move the tape pointer one cell to the left. -/
  | moveLeft
  /-- Move the tape pointer one cell to the right. -/
  | moveRight
  /-- Add one to the current cell. -/
  | increment
  /-- Subtract one from the current cell. -/
  | decrement
  /-- Store one input byte in the current cell. -/
  | read
  /-- Write the current cell as one output byte. -/
  | write
  /-- Jump past the matching bracket when the current cell is zero. -/
  | jumpIfZero
  /-- Jump back behind the matching bracket when the current cell is not zero. -/
  | jumpIfNonZero
  deriving DecidableEq

namespace Instruction

/-- The character that stands for an instruction. -/
def symbol : Instruction → Char
  | moveLeft => '<'
  | moveRight => '>'
  | increment => '+'
  | decrement => '-'
  | read => ','
  | write => '.'
  | jumpIfZero => '['
  | jumpIfNonZero => ']'

/-- The instruction that a character stands for, if any. -/
def ofSymbol? : Char → Option Instruction
  | '<' => some moveLeft
  | '>' => some moveRight
  | '+' => some increment
  | '-' => some decrement
  | ',' => some read
  | '.' => some write
  | '[' => some jumpIfZero
  | ']' => some jumpIfNonZero
  | _ => none

/-- Whether the instruction is a bracket. -/
def isJump : Instruction → Bool
  | jumpIfZero | jumpIfNonZero => true
  | _ => false

/-- Reading the symbol of an instruction gives it back. -/
theorem ofSymbol?_symbol (i : Instruction) : ofSymbol? i.symbol = some i := by
  cases i <;> rfl

end Instruction

end TapeReach
