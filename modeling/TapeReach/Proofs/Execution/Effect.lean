import TapeReach.Execution.Basic

/-!
# What an instruction does

An instruction works on the tape, the streams and the budget of a run, and
apart from a bracket it does not ask where it stands. Its effect is a function
on these alone. A step of a run has the effect of the instruction at its
position and goes to the next one, or a stream fails and the run ends there.
-/

namespace TapeReach

/-- What the instructions of a run work on. -/
structure Machine where
  /-- The tape. -/
  tape : Tape
  /-- Number of bytes that may still be read, unlimited if absent. -/
  readsLeft : Option Nat
  /-- What is left of the input. -/
  input : InputStream
  /-- What has been written. -/
  output : OutputStream
  deriving DecidableEq

namespace Machine

/-- A read that finds no byte. -/
def readNothing (m : Machine) (io : InputModel) : Machine :=
  if io.noChangeOnEof then m else { m with tape := m.tape.setCurrent io.eofByte.toUInt32 }

/-- Read a byte, or fail with the input. A read behind the budget does not ask the input. -/
def read (m : Machine) (io : InputModel) : Option Machine :=
  if m.readsLeft = some 0 then some (m.readNothing io)
  else
    match m.input.next with
    | (.ok (some b), input) =>
      some { m with
        tape := m.tape.setCurrent b.toUInt32
        readsLeft := m.readsLeft.map (· - 1)
        input := input }
    | (.ok none, input) => some ({ m with input := input }.readNothing io)
    | (.error _, _) => none

/-- Write the current cell, or fail with the output. -/
def write (m : Machine) : Option Machine :=
  if m.output.isFull then none
  else some { m with output := m.output.push m.tape.current.toUInt8 }

/-- What an instruction does, unless a stream fails. A bracket does nothing by itself. -/
def effect (m : Machine) (io : InputModel) : Instruction → Option Machine
  | .moveLeft => some { m with tape := m.tape.left }
  | .moveRight => some { m with tape := m.tape.right }
  | .increment => some { m with tape := m.tape.increment }
  | .decrement => some { m with tape := m.tape.decrement }
  | .read => m.read io
  | .write => m.write
  | .jumpIfZero | .jumpIfNonZero => some m

end Machine

namespace Execution

/-- What the instructions work on. -/
def machine (e : Execution) : Machine := ⟨e.tape, e.readsLeft, e.input, e.output⟩

/-- The step at the position goes to the next one with this effect, or it fails and has none. -/
inductive HasEffect (pc : Nat) : Loop.Step Execution RunOutcome → Option Machine → Prop
  /-- The step goes on. -/
  | more {e : Execution} (hpc : e.pc = pc + 1) : HasEffect pc (.more e) (some e.machine)
  /-- The step fails. -/
  | failed {error : RunError} {final : Execution} :
      HasEffect pc (.done ⟨.error error, final⟩) none

variable {program : Program} {io : InputModel} {e : Execution}

/-- A read that finds no byte does with a run what it does with its machine. -/
theorem hasEffect_store_none (e : Execution) (io : InputModel) :
    HasEffect e.pc (.more (e.store io none)) (some (e.machine.readNothing io)) := by
  rw [store, Machine.readNothing]
  split <;> exact .more rfl

/-- Behind its budget a run reads nothing. -/
theorem takeByte_of_spent (h : e.readsLeft = some 0) : e.takeByte = (.ok none, e) := by
  simp only [takeByte, h]

/-- Within its budget a run asks the input. -/
theorem takeByte_of_budget (h : e.readsLeft ≠ some 0) :
    e.takeByte =
      match e.input.next with
      | (.ok (some b), input) =>
        (.ok (some b), { e with input := input, readsLeft := e.readsLeft.map (· - 1) })
      | (answer, input) => (answer, { e with input := input }) := by
  unfold takeByte
  split
  · contradiction
  · rfl

/-- A read of a run is a read of its machine. -/
theorem hasEffect_read (program : Program) (io : InputModel) (e : Execution) :
    HasEffect e.pc (e.perform program io .read) (e.machine.read io) := by
  by_cases hbudget : e.readsLeft = some 0
  · have hread : e.machine.read io = some (e.machine.readNothing io) := if_pos hbudget
    rw [perform, takeByte_of_spent hbudget, hread]
    exact hasEffect_store_none e io
  · have hmachine : ¬ e.machine.readsLeft = some 0 := hbudget
    have hinput : e.input = e.machine.input := rfl
    rw [perform, takeByte_of_budget hbudget, Machine.read, if_neg hmachine, hinput]
    rcases e.machine.input.next with ⟨_ | _ | b, input⟩
    · exact .failed
    · exact hasEffect_store_none { e with input := input } io
    · exact .more rfl

/-- An instruction other than a bracket does with a run what it does with its machine. -/
theorem hasEffect_perform (program : Program) (io : InputModel) (e : Execution) {i : Instruction}
    (hi : i.isJump = false) : HasEffect e.pc (e.perform program io i) (e.machine.effect io i) := by
  cases i with
  | moveLeft | moveRight | increment | decrement => exact .more rfl
  | read => exact hasEffect_read program io e
  | write =>
    by_cases hfull : e.output.isFull
    · have hwrite : e.machine.write = none := if_pos hfull
      rw [perform, if_pos hfull, Machine.effect, hwrite]
      exact .failed
    · have hwrite : e.machine.write = some (e.emit e.tape.current.toUInt8).machine :=
        if_neg hfull
      rw [perform, if_neg hfull, Machine.effect, hwrite]
      exact .more rfl
  | jumpIfZero | jumpIfNonZero => cases hi

/-- Without a limit a run executes the instruction at its position. -/
theorem step_of_instructionAt {i : Instruction} (h : program.instructionAt? e.pc = some i) :
    step program io none e = e.perform program io i := by
  rw [step, h]

/-- An instruction that has an effect on the machine has it on the run. -/
theorem exists_step_of_effect {i : Instruction} (hi : i.isJump = false)
    (hat : program.instructionAt? e.pc = some i) {m : Machine}
    (h : e.machine.effect io i = some m) :
    ∃ e', step program io none e = .more e' ∧ e'.pc = e.pc + 1 ∧ e'.machine = m := by
  have hstep := hasEffect_perform program io e hi
  rw [h, ← step_of_instructionAt hat] at hstep
  generalize hnext : step program io none e = next at hstep
  cases hstep with
  | more hpc => exact ⟨_, rfl, hpc, rfl⟩

end Execution

end TapeReach
