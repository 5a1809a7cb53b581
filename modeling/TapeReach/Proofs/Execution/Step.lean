import TapeReach.Proofs.Execution.Effect
import TapeReach.Proofs.Loop

/-!
# Steps of a run

A step executes the instruction at the position of a run, if there is one and
the limit grants it. The two relations here list what the instruction can lead
to and why a run can end, each with its conditions, and the step function is
opened nowhere else. A run takes such steps until one of them ends it or its
rounds are over.
-/

namespace TapeReach.Execution

/-- A further instruction is within the limit. -/
def Granted (limit : Option Nat) (e : Execution) : Prop :=
  ∀ n, limit = some n → e.stats.steps < n

/-- The bracket jumps. -/
def Taken (e : Execution) (i : Instruction) : Prop :=
  i = .jumpIfZero ∧ e.tape.current = 0 ∨ i = .jumpIfNonZero ∧ e.tape.current ≠ 0

/-- The bracket does not jump. -/
def Passed (e : Execution) (i : Instruction) : Prop :=
  i = .jumpIfZero ∧ e.tape.current ≠ 0 ∨ i = .jumpIfNonZero ∧ e.tape.current = 0

/-- What the instruction at the position of `e` can lead to. -/
inductive Advance (program : Program) (io : InputModel) (e : Execution) : Execution → Prop
  | left (hi : program.instructionAt? e.pc = some .moveLeft) :
      Advance program io e (e.advance e.tape.left)
  | right (hi : program.instructionAt? e.pc = some .moveRight) :
      Advance program io e (e.advance e.tape.right)
  | increment (hi : program.instructionAt? e.pc = some .increment) :
      Advance program io e (e.advance e.tape.increment)
  | decrement (hi : program.instructionAt? e.pc = some .decrement) :
      Advance program io e (e.advance e.tape.decrement)
  /-- The budget is used up, and the input is not asked. -/
  | spent (hi : program.instructionAt? e.pc = some .read) (hreads : e.readsLeft = some 0) :
      Advance program io e (e.store io none)
  | ended (hi : program.instructionAt? e.pc = some .read) (hreads : e.readsLeft ≠ some 0)
      {input : InputStream} (hnext : e.input.next = (.ok none, input)) :
      Advance program io e (store { e with input := input } io none)
  | received (hi : program.instructionAt? e.pc = some .read) (hreads : e.readsLeft ≠ some 0)
      {b : UInt8} {input : InputStream} (hnext : e.input.next = (.ok (some b), input)) :
      Advance program io e
        (store { e with input := input, readsLeft := e.readsLeft.map (· - 1) } io (some b))
  | write (hi : program.instructionAt? e.pc = some .write) (hroom : e.output.isFull = false) :
      Advance program io e (e.emit e.tape.current.toUInt8)
  | pass {i : Instruction} (hi : program.instructionAt? e.pc = some i) (hc : e.Passed i) :
      Advance program io e (e.advance e.tape)
  | jump {i : Instruction} (hi : program.instructionAt? e.pc = some i) (hc : e.Taken i)
      {target : Nat} (ht : program.jumpTarget? e.pc = some target) :
      Advance program io e { e.advance e.tape with pc := target }

/-- Why the instruction at the position of `e` can fail, and what it leaves. -/
inductive Failure (program : Program) (e : Execution) : RunError → Execution → Prop
  | read (hi : program.instructionAt? e.pc = some .read) (hreads : e.readsLeft ≠ some 0)
      {fault : StreamFault} {input : InputStream} (hnext : e.input.next = (.error fault, input)) :
      Failure program e (.stream fault) { e with input := input }
  | write (hi : program.instructionAt? e.pc = some .write) (hfull : e.output.isFull = true) :
      Failure program e (.stream .write) e
  | untargeted {i : Instruction} (hi : program.instructionAt? e.pc = some i) (hc : e.Taken i)
      (ht : program.jumpTarget? e.pc = none) : Failure program e (.malformedJumpTable e.pc) e

/-- How the run can end at the position of `e`. -/
inductive Stop (program : Program) (limit : Option Nat) (e : Execution) : RunOutcome → Prop
  | halted (hi : program.instructionAt? e.pc = none) : Stop program limit e e.finish
  | limited {i : Instruction} (hi : program.instructionAt? e.pc = some i) {n : Nat}
      (hlimit : limit = some n) (hn : n ≤ e.stats.steps) :
      Stop program limit e ⟨.error (.stepLimit n), e⟩
  | failed (hgranted : e.Granted limit) {error : RunError} {final : Execution}
      (h : Failure program e error final) : Stop program limit e ⟨.error error, final⟩

/-- What the instruction at the position of `e` comes to: it advances the run or fails. -/
inductive Performed (program : Program) (io : InputModel) (e : Execution) :
    Loop.Step Execution RunOutcome → Prop
  | more {e' : Execution} (h : Advance program io e e') : Performed program io e (.more e')
  | done {error : RunError} {final : Execution} (h : Failure program e error final) :
      Performed program io e (.done ⟨.error error, final⟩)

variable {program : Program} {io : InputModel} {limit : Option Nat} {e e' : Execution}
  {i : Instruction}

/-- An instruction is within a limit that has not been reached. -/
theorem granted_of_lt {n : Nat} (h : e.stats.steps < n) : e.Granted (some n) := by
  intro m hm
  cases hm
  exact h

/-- A bracket advances the run, or it has no target to jump to. -/
theorem performed_branch (io : InputModel) (hi : program.instructionAt? e.pc = some i)
    {taken : Bool} (htaken : taken = true → e.Taken i) (hpassed : taken = false → e.Passed i) :
    Performed program io e (branch program e taken) := by
  cases taken with
  | false => exact .more (.pass hi (hpassed rfl))
  | true =>
    rw [branch, if_pos rfl]
    cases ht : program.jumpTarget? e.pc with
    | none => exact .done (.untargeted hi (htaken rfl) ht)
    | some target => exact .more (.jump hi (htaken rfl) ht)

/-- A read advances the run, or the input fails. -/
theorem performed_read (io : InputModel) (hi : program.instructionAt? e.pc = some .read) :
    Performed program io e (e.perform program io .read) := by
  rw [perform]
  by_cases hreads : e.readsLeft = some 0
  · rw [takeByte_of_spent hreads]
    exact .more (.spent hi hreads)
  · rw [takeByte_of_budget hreads]
    cases hnext : e.input.next with
    | mk answer input =>
      cases answer with
      | error fault => exact .done (.read hi hreads hnext)
      | ok found =>
        cases found with
        | none => exact .more (.ended hi hreads hnext)
        | some b => exact .more (.received hi hreads hnext)

/-- Every instruction advances the run or fails. -/
theorem performed (io : InputModel) (hi : program.instructionAt? e.pc = some i) :
    Performed program io e (e.perform program io i) := by
  cases i with
  | moveLeft => exact .more (.left hi)
  | moveRight => exact .more (.right hi)
  | increment => exact .more (.increment hi)
  | decrement => exact .more (.decrement hi)
  | read => exact performed_read io hi
  | write =>
    cases hfull : e.output.isFull with
    | true =>
      rw [perform, if_pos hfull]
      exact .done (.write hi hfull)
    | false =>
      rw [perform, if_neg (Bool.eq_false_iff.mp hfull)]
      exact .more (.write hi hfull)
  | jumpIfZero =>
    refine performed_branch io hi (fun h => .inl ⟨rfl, ?_⟩) fun h => .inl ⟨rfl, ?_⟩
    · simpa using h
    · simpa using h
  | jumpIfNonZero =>
    refine performed_branch io hi (fun h => .inr ⟨rfl, ?_⟩) fun h => .inr ⟨rfl, ?_⟩
    · simpa using h
    · simpa using h

/-- Within the limit a run executes the instruction at its position. -/
theorem step_of_granted (hi : program.instructionAt? e.pc = some i) (h : e.Granted limit) :
    step program io limit e = e.perform program io i := by
  rw [step, hi]
  cases limit with
  | none => rfl
  | some n => exact if_neg (Nat.not_le_of_lt (h n rfl))

/-- What a step that goes on has done. -/
theorem advance_of_step (h : step program io limit e = .more e') :
    e.Granted limit ∧ Advance program io e e' := by
  cases hi : program.instructionAt? e.pc with
  | none => simp only [step, hi, reduceCtorEq] at h
  | some i =>
    have hgranted : e.Granted limit := by
      rintro n rfl
      refine Nat.lt_of_not_le fun hn => ?_
      simp only [step, hi, if_pos hn, reduceCtorEq] at h
    rw [step_of_granted hi hgranted] at h
    have hperformed := performed io hi
    rw [h] at hperformed
    cases hperformed with
    | more hadvance => exact ⟨hgranted, hadvance⟩

/-- Why a step has ended the run. -/
theorem stop_of_step {outcome : RunOutcome} (h : step program io limit e = .done outcome) :
    Stop program limit e outcome := by
  cases hi : program.instructionAt? e.pc with
  | none =>
    simp only [step, hi, Loop.Step.done.injEq] at h
    exact h ▸ .halted hi
  | some i =>
    by_cases hgranted : e.Granted limit
    · rw [step_of_granted hi hgranted] at h
      have hperformed := performed io hi
      rw [h] at hperformed
      cases hperformed with
      | done hfailure => exact .failed hgranted hfailure
    · simp only [Granted, Classical.not_forall, Nat.not_lt] at hgranted
      obtain ⟨n, rfl, hn⟩ := hgranted
      simp only [step, hi, if_pos hn, Loop.Step.done.injEq] at h
      exact h ▸ .limited hi rfl hn

/-- An instruction that can advance the run does so within the limit. -/
theorem Advance.step_eq (h : Advance program io e e') (hgranted : e.Granted limit) :
    step program io limit e = .more e' := by
  cases h with
  | left hi | right hi | increment hi | decrement hi => rw [step_of_granted hi hgranted]; rfl
  | spent hi hreads =>
    rw [step_of_granted hi hgranted, perform, takeByte_of_spent hreads]
  | ended hi hreads hnext | received hi hreads hnext =>
    rw [step_of_granted hi hgranted, perform, takeByte_of_budget hreads, hnext]
  | write hi hroom =>
    rw [step_of_granted hi hgranted, perform, if_neg (Bool.eq_false_iff.mp hroom)]
  | pass hi hc =>
    rw [step_of_granted hi hgranted]
    rcases hc with ⟨rfl, hcell⟩ | ⟨rfl, hcell⟩ <;> simp [perform, branch, hcell]
  | jump hi hc ht =>
    rw [step_of_granted hi hgranted]
    rcases hc with ⟨rfl, hcell⟩ | ⟨rfl, hcell⟩ <;> simp [perform, branch, hcell, ht]

/-- A run that can end does so. -/
theorem Stop.step_eq {outcome : RunOutcome} (h : Stop program limit e outcome) (io : InputModel) :
    step program io limit e = .done outcome := by
  cases h with
  | halted hi => rw [step, hi]
  | limited hi hlimit hn => simp only [step, hi, hlimit, if_pos hn]
  | failed hgranted hfailure =>
    cases hfailure with
    | read hi hreads hnext =>
      rw [step_of_granted hi hgranted, perform, takeByte_of_budget hreads, hnext]
    | write hi hfull => rw [step_of_granted hi hgranted, perform, if_pos hfull]
    | untargeted hi hc ht =>
      rw [step_of_granted hi hgranted]
      rcases hc with ⟨rfl, hcell⟩ | ⟨rfl, hcell⟩ <;> simp [perform, branch, hcell, ht]

/-- A read that finds no byte changes nothing but the tape. -/
theorem exists_store_none (e : Execution) (io : InputModel) :
    ∃ tape, e.store io none = e.advance tape := by
  rw [store]
  split
  · exact ⟨_, rfl⟩
  · exact ⟨_, rfl⟩

/-- Every instruction is counted. -/
theorem Advance.steps (h : Advance program io e e') : e'.stats.steps = e.stats.steps + 1 := by
  cases h with
  | left | right | increment | decrement | received | write | pass | jump => rfl
  | spent =>
    obtain ⟨tape, heq⟩ := e.exists_store_none io
    rw [heq]
    rfl
  | @ended _ _ input =>
    obtain ⟨tape, heq⟩ := exists_store_none { e with input := input } io
    rw [heq]
    rfl

variable {first : Execution} {outcome : RunOutcome} {n : Nat}

/-- The counter of a run tells how many instructions it has executed. -/
theorem steps_of_iterate (h : Loop.iterate (step program io limit) n first = .more e) :
    e.stats.steps = first.stats.steps + n := by
  refine @Loop.iterate_more_count _ _ _ (fun e : Execution => e.stats.steps) ?_ n first e h
  exact fun _ _ hstep => (advance_of_step hstep).2.steps

/-- A run that ends within the rounds granted to it has that outcome. -/
theorem run_of_iterate (h : Loop.iterate (step program io limit) n first = .done outcome)
    (hn : n ≤ 2 ^ 65 - 1) : run program io limit first = outcome := by
  rw [run, Loop.rounds_eq_iterate, runRounds, Nat.mul_one, Loop.iterate_eq_done_of_le h hn]

/-- A run that goes on behind the rounds granted to it counts as exceeding them. -/
theorem run_of_iterate_more
    (h : Loop.iterate (step program io limit) (2 ^ 65 - 1) first = .more e) :
    run program io limit first = ⟨.error (.stepLimit (2 ^ 65 - 1)), e⟩ := by
  rw [run, Loop.rounds_eq_iterate, runRounds, Nat.mul_one, h]
  rfl

/-- A run takes steps until one of them ends it or the rounds granted to it are over. -/
theorem run_cases (program : Program) (io : InputModel) (limit : Option Nat) (first : Execution) :
    (∃ n < 2 ^ 65 - 1, ∃ e, Loop.iterate (step program io limit) n first = .more e ∧
      Stop program limit e (run program io limit first)) ∨
    ∃ e, Loop.iterate (step program io limit) (2 ^ 65 - 1) first = .more e ∧
      run program io limit first = ⟨.error (.stepLimit (2 ^ 65 - 1)), e⟩ := by
  cases h : Loop.iterate (step program io limit) (2 ^ 65 - 1) first with
  | done outcome =>
    obtain ⟨n, hn, e, he, hlast⟩ := Loop.exists_last_of_done h
    rw [run_of_iterate h (Nat.le_refl _)]
    exact .inl ⟨n, hn, e, he, stop_of_step hlast⟩
  | more e => exact .inr ⟨e, rfl, run_of_iterate_more h⟩

end TapeReach.Execution
