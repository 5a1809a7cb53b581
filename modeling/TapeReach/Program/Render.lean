import TapeReach.Program.Source

/-!
# Writing program text

The canonical text of a program has no comments: the labels of each position
in order, then its instruction, up to and including the halting position.
Labels behind the halting position are not written.
-/

namespace TapeReach.Program

/-- A label as it stands in a program text. -/
def labelText (name : String) : List Char := labelMark :: (name.toList ++ [labelMark])

/-- The canonical text of one position. -/
def positionText (program : Program) (withLabels : Bool) (pc : Nat) : List Char :=
  (if withLabels then (program.labelsAt pc).flatMap labelText else []) ++
    (program.instructionAt? pc).toList.map Instruction.symbol

/-- The characters of the canonical text. -/
def renderChars (program : Program) (withLabels : Bool) : List Char :=
  (List.range (program.size + 1)).flatMap (program.positionText withLabels)

/-- The canonical text, with or without labels. -/
def render (program : Program) (withLabels : Bool) : String :=
  String.ofList (program.renderChars withLabels)

end TapeReach.Program
