import TapeReach.Proofs.Execution.Step

/-!
# Runs with a limited number of instructions

A limit is an exact threshold. A run that ends within the granted number of
instructions, whether it halts or fails, ends in the same way with the limit
and without it, also when it halts right behind the last instruction granted
or when that one fails. Any other run has executed exactly the granted
instructions when it is stopped, and what it leaves is what they have left.
-/

namespace TapeReach.Execution

/-- Without a limit the run ends within its first `count` instructions: it halts behind
some of them, or one of them fails. -/
inductive EndsWithin (program : Program) (io : InputModel) (first : Execution) (count : Nat) :
    RunOutcome → Prop
  /-- No instruction is left behind the first `n`. -/
  | halts {n : Nat} {e : Execution} (hn : n ≤ count)
      (he : Loop.iterate (step program io none) n first = .more e)
      (hi : program.instructionAt? e.pc = none) : EndsWithin program io first count e.finish
  /-- The instruction behind the first `n` ends the run. -/
  | fails {n : Nat} {e : Execution} {i : Instruction} {outcome : RunOutcome} (hn : n < count)
      (he : Loop.iterate (step program io none) n first = .more e)
      (hi : program.instructionAt? e.pc = some i)
      (hfails : step program io none e = .done outcome) : EndsWithin program io first count outcome

variable {program : Program} {io : InputModel} {limit : Option Nat} {first e : Execution}
  {outcome : RunOutcome} {n count : Nat}

/-- The limit makes no difference to the instructions that it grants. -/
theorem iterate_of_granted (h : Loop.iterate (step program io none) n first = .more e)
    (hn : first.stats.steps + n ≤ count) :
    Loop.iterate (step program io (some count)) n first = .more e := by
  induction n generalizing first with
  | zero => exact h
  | succ n ih =>
    cases hfirst : step program io none first with
    | done outcome => simp only [Loop.iterate, hfirst, reduceCtorEq] at h
    | more next =>
      have hadvance := (advance_of_step hfirst).2
      have hsteps := hadvance.steps
      have hgranted : first.Granted (some count) := granted_of_lt (by omega)
      rw [Loop.iterate_of_step hfirst] at h
      rw [Loop.iterate_of_step (hadvance.step_eq hgranted)]
      exact ih h (by omega)

/-- A run that ends within the limit takes the same last step with it and without it. -/
theorem EndsWithin.exists_last (h : EndsWithin program io first count outcome)
    (hfirst : first.stats.steps = 0) :
    ∃ n ≤ count, ∃ e, Loop.iterate (step program io none) n first = .more e ∧
      step program io none e = .done outcome ∧ step program io (some count) e = .done outcome := by
  cases h with
  | @halts n e hn he hi =>
    exact ⟨n, hn, e, he, (Stop.halted hi).step_eq io, (Stop.halted hi).step_eq io⟩
  | @fails n e i _ hn he hi hfails =>
    have hsteps := steps_of_iterate he
    have hgranted : e.Granted (some count) := granted_of_lt (by omega)
    refine ⟨n, Nat.le_of_lt hn, e, he, hfails, ?_⟩
    rw [step_of_granted hi hgranted, ← step_of_instructionAt hi, hfails]

/-- A run does not end within a number of instructions exactly if it executes them all and
has another one in front of it. -/
theorem not_endsWithin_iff :
    (∀ outcome, ¬ EndsWithin program io first count outcome) ↔
      ∃ e i, Loop.iterate (step program io none) count first = .more e ∧
        program.instructionAt? e.pc = some i := by
  constructor
  · intro h
    cases hcount : Loop.iterate (step program io none) count first with
    | done outcome =>
      obtain ⟨n, hn, e, he, hlast⟩ := Loop.exists_last_of_done hcount
      cases hi : program.instructionAt? e.pc with
      | none => exact absurd (.halts (Nat.le_of_lt hn) he hi) (h _)
      | some i => exact absurd (.fails hn he hi hlast) (h outcome)
    | more e =>
      cases hi : program.instructionAt? e.pc with
      | none => exact absurd (.halts (Nat.le_refl count) hcount hi) (h _)
      | some i => exact ⟨e, i, rfl, hi⟩
  · rintro ⟨e, i, hcount, hi⟩ outcome h
    -- A last step before the end of the count leaves nothing to come to.
    have hends : ∀ n < count, ∀ e' outcome,
        Loop.iterate (step program io none) n first = .more e' →
        step program io none e' ≠ .done outcome := by
      intro n hn e' outcome he' hlast
      have hdone := (Loop.iterate_succ_of_more he').trans hlast
      rw [Loop.iterate_eq_done_of_le hdone hn] at hcount
      cases hcount
    cases h with
    | @halts n e' hn he' hi' =>
      rcases Nat.lt_or_eq_of_le hn with hlt | rfl
      · exact hends n hlt e' _ he' ((Stop.halted hi').step_eq io)
      · rw [hcount, Loop.Step.more.injEq] at he'
        rw [he', hi'] at hi
        cases hi
    | @fails n e' _ _ hn he' _ hfails => exact hends n hn e' outcome he' hfails

/-- A limit is an exact threshold. If the run without a limit ends within that number of
instructions, then the run with the limit has the same outcome. Otherwise it is stopped,
and all that it leaves is as the granted instructions of the run without a limit have left
it. -/
theorem run_limit_threshold (program : Program) (io : InputModel) (tape : Tape)
    (input : InputStream) (output : OutputStream) (count : Nat) (hcount : count < 2 ^ 64) :
    (∀ outcome, EndsWithin program io (start io tape input output) count outcome →
      run program io none (start io tape input output) = outcome ∧
        run program io (some count) (start io tape input output) = outcome) ∧
    ((∀ outcome, ¬ EndsWithin program io (start io tape input output) count outcome) →
      ∃ e, Loop.iterate (step program io none) count (start io tape input output) = .more e ∧
        run program io (some count) (start io tape input output) =
          ⟨.error (.stepLimit count), e⟩) := by
  have hfirst : (start io tape input output).stats.steps = 0 := rfl
  constructor
  · intro outcome h
    obtain ⟨n, hn, e, he, hlast, hlast'⟩ := h.exists_last hfirst
    have he' := iterate_of_granted he (show _ ≤ count by omega)
    exact ⟨run_of_iterate ((Loop.iterate_succ_of_more he).trans hlast) (by omega),
      run_of_iterate ((Loop.iterate_succ_of_more he').trans hlast') (by omega)⟩
  · intro h
    obtain ⟨e, i, he, hi⟩ := not_endsWithin_iff.mp h
    have hsteps := steps_of_iterate he
    have he' := iterate_of_granted he (show _ ≤ count by omega)
    have hstop : Stop program (some count) e ⟨.error (.stepLimit count), e⟩ :=
      .limited hi rfl (by omega)
    exact ⟨e, he, run_of_iterate ((Loop.iterate_succ_of_more he').trans (hstop.step_eq io))
      (by omega)⟩

/-- Copy a byte and then come to a bracket that has no jump target. -/
def stumbling : Program := .ofTables [.read, .write, .jumpIfZero] [] []

/-- The run of it on a zero, at its start. -/
def stumble : Execution := start {} (.blank {}) (.ofBytes [0]) {}

/-- The third instruction fails. Three granted instructions let it fail, and with two the run
is stopped in front of it, with the byte read and written. -/
theorem stumbling_limit_threshold :
    run stumbling {} none stumble = run stumbling {} (some 3) stumble ∧
      (run stumbling {} (some 3) stumble).result = .error (.malformedJumpTable 2) ∧
      ∃ e, Loop.iterate (step stumbling {} none) 2 stumble = .more e ∧
        run stumbling {} (some 2) stumble = ⟨.error (.stepLimit 2), e⟩ ∧
        e.input.consumed = 1 ∧ e.output.written = #[0] := by
  have hfails : EndsWithin stumbling {} stumble 3 (run stumbling {} (some 3) stumble) :=
    .fails (n := 2) (by decide) rfl rfl rfl
  have hgoes : ∀ outcome, ¬ EndsWithin stumbling {} stumble 2 outcome :=
    not_endsWithin_iff.mpr ⟨_, _, rfl, rfl⟩
  obtain ⟨hsame, _⟩ := run_limit_threshold stumbling {} (.blank {}) (.ofBytes [0]) {} 3 (by decide)
  obtain ⟨_, hstops⟩ := run_limit_threshold stumbling {} (.blank {}) (.ofBytes [0]) {} 2 (by decide)
  obtain ⟨e, he, hrun⟩ := hstops hgoes
  refine ⟨(hsame _ hfails).1, rfl, e, he, hrun, ?_⟩
  cases he
  exact ⟨rfl, rfl⟩

end TapeReach.Execution
