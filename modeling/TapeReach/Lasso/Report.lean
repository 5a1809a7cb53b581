import TapeReach.Lasso.Basic
import TapeReach.Program.Position
import TapeReach.Program.Render
import TapeReach.State.Basic

/-!
# Counterexamples as program text

A lasso of machine states is shown by the instructions that its states are
about to execute: those of the stem, those of the cycle, and then the rest of
the program behind the last one, in which the label that was missed is
marked. A state that has halted is shown as a dollar sign.
-/

namespace TapeReach

/-- A part of the program text behind a lasso. -/
inductive Piece where
  /-- Instructions. -/
  | code (symbols : String)
  /-- The label that was missed. -/
  | label (name : String)
  deriving DecidableEq

/-- The part as it stands in a program text. -/
def Piece.text : Piece → String
  | code symbols => symbols
  | label name => String.ofList (Program.labelText name)

/-- A lasso as program text. -/
structure Report where
  /-- The label that was missed. -/
  label : String
  /-- The lasso. -/
  lasso : Lasso State
  /-- Symbols of the states of the stem. -/
  stem : String
  /-- Symbols of the states of the cycle. -/
  cycle : String
  /-- The rest of the program. -/
  continuation : List Piece

namespace Report

/-- The symbol of a state that has halted. -/
def haltedSymbol : Char := '$'

/-- The symbol of the instruction that a state is about to execute. -/
def symbolOf (program : Program) (s : State) : Char :=
  match program.instructionAt? s.pc with
  | some i => i.symbol
  | none => haltedSymbol

/-- The symbols of some states. -/
def symbols (program : Program) (states : List State) : String :=
  String.ofList (states.map (symbolOf program))

/-- Gathered instructions as a piece, if there are any; symbols are given last first. -/
def codePiece : List Char → List Piece
  | [] => []
  | code => [.code (String.ofList code.reverse)]

/-- The pieces of some positions, when the symbols of `code`, last first, precede them. -/
def piecesFrom (program : Program) (label : String) : (code : List Char) → List Nat → List Piece
  | code, [] => codePiece code
  | code, pc :: rest =>
    let symbol := (program.instructionAt? pc).toList.map Instruction.symbol
    if (program.labelsAt pc).contains label then
      codePiece code ++ .label label :: piecesFrom program label symbol rest
    else piecesFrom program label (symbol ++ code) rest

/-- The positions from `start` up to the halting position, or `start` alone behind it. -/
def positionsFrom (program : Program) (start : Nat) : List Nat :=
  List.range' start (program.size - start + 1)

/-- The rest of the program behind the last state of a cycle. -/
def continuationOf (program : Program) (cycle : List State) (label : String) :
    Except CheckError (List Piece) :=
  match cycle.getLast? with
  | some last => do
    let start ← program.nextPosition last.pc
    return piecesFrom program label [] (positionsFrom program start)
  | none => .ok []

/-- Show a lasso that misses a label. -/
def ofLasso (program : Program) (lasso : Lasso State) (label : String) :
    Except CheckError Report := do
  let continuation ← continuationOf program lasso.cycle label
  return {
    label := label
    lasso := lasso
    stem := symbols program lasso.stem
    cycle := symbols program lasso.cycle
    continuation := continuation }

/-- The rest of the program in one text. -/
def continuationText (report : Report) : String :=
  String.join (report.continuation.map Piece.text)

/-- The three parts in one line. -/
def text (report : Report) : String :=
  report.stem ++ " | " ++ report.cycle ++ " | " ++ report.continuationText

end Report

end TapeReach
