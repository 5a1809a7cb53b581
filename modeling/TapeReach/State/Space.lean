import TapeReach.CheckError
import TapeReach.InputModel
import TapeReach.Program.Position
import TapeReach.State.Basic
import TapeReach.TransitionSystem

/-!
# The state space of a program

A program and an input model span a transition system of machine states on a
tape of 30000 cells that goes around at its ends. One transition executes one
instruction. A read branches over every byte it could find; output is not
part of a state. A program that has halted and a read that is blocked have no
successor.
-/

namespace TapeReach

namespace State

/-- Position of the cell to the left. -/
def leftPointer (s : State) : Nat :=
  if s.pointer = 0 then defaultTapeLength - 1 else s.pointer - 1

/-- Position of the cell to the right. -/
def rightPointer (s : State) : Except CheckError Nat := do
  let right ← nextWord s.pointer
  return if defaultTapeLength ≤ right then 0 else right

end State

namespace Program

/-- The state behind a bracket, when another instruction stands at `next`. -/
def branch (program : Program) (s : State) (next : Nat) (taken : Bool) :
    Except CheckError State :=
  if taken then
    match program.jumpTarget? s.pc with
    | some target => .ok (s.jump target)
    | none => .error (.malformedJumpTable s.pc)
  else .ok (s.jump next)

/-- The states behind one instruction, when another one stands at `next`. -/
def perform (program : Program) (io : InputModel) (s : State) (next : Nat) :
    Instruction → Except CheckError (List State)
  | .moveLeft => .ok [s.move next s.leftPointer]
  | .moveRight => s.rightPointer.map fun right => [s.move next right]
  | .increment => .ok [s.write next (s.current + 1)]
  | .decrement => .ok [s.write next (s.current - 1)]
  | .read => .ok ((io.possibleReads s.readsLeft).toList.map (s.receive next))
  | .write => .ok [s.jump next]
  | .jumpIfZero => (program.branch s next (s.current == 0)).map ([·])
  | .jumpIfNonZero => (program.branch s next (s.current != 0)).map ([·])

/-- The states that may follow a state. The next position is asked for first, so that a
state at the greatest word fails although its run has halted. -/
def successors (program : Program) (io : InputModel) (s : State) :
    Except CheckError (List State) := do
  let next ← program.nextPosition s.pc
  match program.instructionAt? s.pc with
  | some i => program.perform io s next i
  | none => return []

/-- The transition system of a program. -/
def stateSpace (program : Program) (io : InputModel) : TransitionSystem State CheckError where
  initial := .initial io.maxReads
  successors := program.successors io

/-- Accept a program in which every bracket has a jump target. -/
def validate (program : Program) : Except CheckError Unit :=
  match program.firstUntargeted? with
  | some pc => .error (.malformedJumpTable pc)
  | none => .ok ()

/-- A number of bits that tells all reachable states apart: some for the program
position, fifteen for the tape position, eight for each cell and some for the reads
left. -/
def stateBits (program : Program) (io : InputModel) : Nat :=
  (Nat.log2 (program.size + 1 + program.jumps.size) + 1) + 15 + 8 * defaultTapeLength +
    (Nat.log2 (io.maxReads.getD 0 + 1) + 1)

end Program

end TapeReach
