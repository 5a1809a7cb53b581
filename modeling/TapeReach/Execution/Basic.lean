import TapeReach.Execution.Stream
import TapeReach.Execution.Tape
import TapeReach.InputModel
import TapeReach.Loop
import TapeReach.Program.Basic

/-!
# Concrete runs

A run executes a program on a tape with an input and an output stream. One
step executes one instruction. A step that fails leaves the tape, the output
and the number of consumed bytes as they were.

The number of instructions may be limited. The limit is tested before each
instruction, so a program that halts with the last one granted has halted.
-/

namespace TapeReach

/-- Why a run failed. -/
inductive RunError where
  /-- The bracket at this position has no jump target. -/
  | malformedJumpTable (pc : Nat)
  /-- The run needs more than this number of instructions. -/
  | stepLimit (limit : Nat)
  /-- A stream operation failed. -/
  | stream (fault : StreamFault)
  deriving DecidableEq

/-- The failure in words. -/
def RunError.message : RunError → String
  | malformedJumpTable pc => s!"malformed jump table: no target for bracket at pc {pc}"
  | stepLimit limit => s!"step limit of {limit} exceeded"
  | stream fault => "I/O error during execution: " ++ fault.message

/-- Counters of a run. -/
structure RunStats where
  /-- Instructions executed. -/
  steps : Nat := 0
  /-- Input bytes stored in a cell. -/
  reads : Nat := 0
  /-- Output bytes written. -/
  writes : Nat := 0
  deriving DecidableEq

/-- A run between two instructions. -/
structure Execution where
  /-- Position of the next instruction. -/
  pc : Nat := 0
  /-- The tape. -/
  tape : Tape
  /-- Number of bytes that may still be read, unlimited if absent. -/
  readsLeft : Option Nat
  /-- What is left of the input. -/
  input : InputStream
  /-- What has been written. -/
  output : OutputStream
  /-- Counters up to here. -/
  stats : RunStats := {}
  deriving DecidableEq

/-- How a run ended, and in which state. -/
structure RunOutcome where
  /-- The counters of a run that halted, or why it failed. -/
  result : Except RunError RunStats
  /-- The tape, streams and position at the end. -/
  final : Execution

namespace Execution

/-- A run at its start. -/
def start (io : InputModel) (tape : Tape) (input : InputStream) (output : OutputStream) :
    Execution where
  tape := tape
  readsLeft := io.maxReads
  input := input
  output := output

/-- Ask the input for a byte, unless the budget is used up. A byte counts against
the budget, the end of the input does not. -/
def takeByte (s : Execution) : Except StreamFault (Option UInt8) × Execution :=
  match s.readsLeft with
  | some 0 => (.ok none, s)
  | budget =>
    match s.input.next with
    | (.ok (some b), input) =>
      (.ok (some b), { s with input := input, readsLeft := budget.map (· - 1) })
    | (answer, input) => (answer, { s with input := input })

/-- The run behind the instruction at `pc`, when that does not jump. -/
def advance (s : Execution) (tape : Tape) : Execution :=
  { s with pc := s.pc + 1, tape := tape, stats.steps := s.stats.steps + 1 }

/-- The run behind a read that found `byte?`. -/
def store (s : Execution) (io : InputModel) : Option UInt8 → Execution
  | some b =>
    { s.advance (s.tape.setCurrent b.toUInt32) with
      stats := { s.stats with steps := s.stats.steps + 1, reads := s.stats.reads + 1 } }
  | none =>
    if io.noChangeOnEof then s.advance s.tape
    else s.advance (s.tape.setCurrent io.eofByte.toUInt32)

/-- The run behind the writing of a byte. -/
def emit : Execution → UInt8 → Execution
  | { pc, tape, readsLeft, input, output, stats }, byte =>
    { pc := pc + 1, tape, readsLeft, input
      output := output.push byte
      stats := { stats with steps := stats.steps + 1, writes := stats.writes + 1 } }

/-- The run behind a bracket. -/
def branch (program : Program) (s : Execution) (taken : Bool) :
    Loop.Step Execution RunOutcome :=
  if taken then
    match program.jumpTarget? s.pc with
    | some target => .more { s.advance s.tape with pc := target }
    | none => .done ⟨.error (.malformedJumpTable s.pc), s⟩
  else .more (s.advance s.tape)

/-- Execute one instruction. -/
def perform (program : Program) (io : InputModel) (s : Execution) :
    Instruction → Loop.Step Execution RunOutcome
  | .moveLeft => .more (s.advance s.tape.left)
  | .moveRight => .more (s.advance s.tape.right)
  | .increment => .more (s.advance s.tape.increment)
  | .decrement => .more (s.advance s.tape.decrement)
  | .read =>
    match s.takeByte with
    | (.ok byte?, s) => .more (s.store io byte?)
    | (.error fault, s) => .done ⟨.error (.stream fault), s⟩
  | .write =>
    if s.output.isFull then .done ⟨.error (.stream .write), s⟩
    else .more (s.emit s.tape.current.toUInt8)
  | .jumpIfZero => branch program s (s.tape.current == 0)
  | .jumpIfNonZero => branch program s (s.tape.current != 0)

/-- End a run that has no instruction left. -/
def finish (s : Execution) : RunOutcome :=
  match s.output.flush with
  | .ok () => ⟨.ok s.stats, s⟩
  | .error fault => ⟨.error (.stream fault), s⟩

/-- One step of a run: execute an instruction if the limit grants it, or end behind
the last one. -/
def step (program : Program) (io : InputModel) (limit : Option Nat) (s : Execution) :
    Loop.Step Execution RunOutcome :=
  match program.instructionAt? s.pc with
  | none => .done s.finish
  | some i =>
    match limit with
    | some n =>
      if n ≤ s.stats.steps then .done ⟨.error (.stepLimit n), s⟩ else s.perform program io i
    | none => s.perform program io i

/-- Rounds of steps granted to a run. They are enough for every limit that fits into a
word; a run without a limit that goes on for longer counts as exceeding that number. -/
def runRounds : Nat := 65

/-- Run with or without a limit on the number of instructions. -/
def run (program : Program) (io : InputModel) (limit : Option Nat) (s : Execution) : RunOutcome :=
  match Loop.rounds (step program io limit) runRounds 1 s with
  | .done outcome => outcome
  | .more s => ⟨.error (.stepLimit (Nat.pow 2 runRounds - 1)), s⟩

/-- Whether the next step asks the input for a byte. -/
def awaitsInput (program : Program) (limit : Option Nat) (s : Execution) : Bool :=
  program.instructionAt? s.pc == some .read && s.readsLeft != some 0 &&
    !limit.any (· ≤ s.stats.steps)

end Execution

end TapeReach
