import Std.Data.ExtTreeMap
import TapeReach.Program.Instruction

/-!
# Programs

A program is a sequence of instructions with two tables: the jump table
gives the position at which a taken bracket continues, and the label map
attaches names to positions. Positions count instructions; the position
`size` behind the last instruction is where every run halts, and it may
carry labels too.

The tables are plain data. A program that was assembled by hand may lack a
jump target or hold labels far behind its end, and all functions here are
defined for such programs as well.
-/

namespace TapeReach

/-- Instructions with their jump table and label map. -/
structure Program where
  /-- The instructions in order. -/
  instructions : Array Instruction
  /-- Where a taken bracket continues, by the position of the bracket. -/
  jumps : Std.ExtTreeMap Nat Nat
  /-- The names attached to a position, in source order. -/
  labels : Std.ExtTreeMap Nat (List String)
  deriving DecidableEq

namespace Program

/-- Assemble a program from lists; of two entries with one key the later counts. -/
def ofTables (instructions : List Instruction) (jumps : List (Nat × Nat))
    (labels : List (Nat × List String)) : Program where
  instructions := instructions.toArray
  jumps := .ofList jumps
  labels := .ofList labels

/-- Number of instructions; also the halting position. -/
def size (program : Program) : Nat := program.instructions.size

/-- The instruction at a position, absent from the halting position on. -/
def instructionAt? (program : Program) (pc : Nat) : Option Instruction :=
  program.instructions[pc]?

/-- Where a taken bracket at `pc` continues. -/
def jumpTarget? (program : Program) (pc : Nat) : Option Nat := program.jumps[pc]?

/-- The names at a position, in source order. -/
def labelsAt (program : Program) (pc : Nat) : List String := (program.labels[pc]?).getD []

/-- Whether some position carries the name. -/
def hasLabel (program : Program) (name : String) : Bool :=
  program.labels.toList.any fun entry => entry.2.contains name

/-- The positions that carry the name, ascending. -/
def labelPositions (program : Program) (name : String) : List Nat :=
  (program.labels.toList.filter fun entry => entry.2.contains name).map Prod.fst

/-- Number of bracket instructions. -/
def bracketCount (program : Program) : Nat :=
  (program.instructions.toList.filter Instruction.isJump).length

/-- The first bracket that has no jump target. -/
def firstUntargeted? (program : Program) : Option Nat :=
  (List.range program.size).find? fun pc =>
    (program.instructionAt? pc).any Instruction.isJump && (program.jumpTarget? pc).isNone

end Program

end TapeReach
