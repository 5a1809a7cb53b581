import Mathlib.Algebra.Group.Action.Defs
import Mathlib.Algebra.Order.BigOperators.Group.Finset
import TapeReach.Check
import TapeReach.Proofs.Execution.Simulation
import TapeReach.Proofs.Lasso.Iterations
import TapeReach.Proofs.Lasso.Verdict
import TapeReach.Proofs.Program.Sharing
import TapeReach.Proofs.State.Finite

/-!
# What a check decides

A check that calls a label unavoidable speaks about concrete runs: on every
finite input the run arrives at a position that carries the label. This needs
a number of its own for each label, and a program with more labels than there
are numbers shows that it does. A check without limits always has an answer,
because the state space of a program is finite and the search is granted more
iterations than it can use up.
-/

namespace TapeReach

variable {program : Program} {label : String} {settings : Settings} {polls : Polls}

/-- A check has a target when the label has one and every bracket has a jump target. -/
theorem Program.checkTarget_eq_ok {target : Target} :
    program.checkTarget label = .ok target ↔
      (Labeling.ofProgram program).target label = .ok target ∧ program.validate = .ok () := by
  unfold Program.checkTarget
  cases (Labeling.ofProgram program).target label with
  | error err => simp [bind, Except.bind]
  | ok found =>
    cases program.validate with
    | error err => simp [bind, Except.bind]
    | ok _ => simp [bind, Except.bind, pure, Except.pure]

/-- A check has a target for every label of an accepted program. -/
theorem Program.exists_checkTarget (hprogram : program.validate = .ok ())
    (hlabel : program.hasLabel label = true) : ∃ target, program.checkTarget label = .ok target := by
  obtain ⟨target, htarget⟩ := Labeling.exists_target hlabel
  exact ⟨target, checkTarget_eq_ok.mpr ⟨htarget, hprogram⟩⟩

/-- The target of a check holds where the label is attached, up to the end of the program, if
there are numbers enough for the labels. -/
theorem Program.checkTarget_holdsAt_iff (hfew : program.propositions.length ≤ UInt32.size)
    {target : Target} (h : program.checkTarget label = .ok target) (pc : Nat) :
    target.holdsAt pc = true ↔ pc ≤ program.size ∧ label ∈ program.labelsAt pc :=
  Labeling.target_holdsAt_iff hfew (checkTarget_eq_ok.mp h).1 pc

/-- A check answers with the verdict and the counters of its search. -/
theorem checkReach_eq_ok {analysis : Analysis} :
    checkReach program label settings polls = .ok analysis ↔
      ∃ target, program.checkTarget label = .ok target ∧
        program.search target settings polls = ⟨.ok analysis.verdict, analysis.stats⟩ := by
  unfold checkReach
  cases program.checkTarget label with
  | error err => simp [bind, Except.bind]
  | ok found =>
    cases hr : program.search found settings polls with
    | mk verdict stats =>
      cases verdict with
      | error err => simp [bind, Except.bind, hr]
      | ok verdict =>
        cases analysis
        simp [bind, Except.bind, pure, Except.pure, hr]

/-- A check gives the verdict that its search has found. -/
theorem checkReach_of_search {target : Target} (hcheck : program.checkTarget label = .ok target)
    {verdict : Verdict State}
    (hverdict : (program.search target settings polls).verdict = .ok verdict) :
    checkReach program label settings polls =
      .ok ⟨verdict, (program.search target settings polls).stats⟩ :=
  checkReach_eq_ok.mpr ⟨target, hcheck, by rw [← hverdict]⟩

/-- A check fails as its search does. -/
theorem checkReach_of_failure {target : Target} (hcheck : program.checkTarget label = .ok target)
    {e : CheckError} (hverdict : (program.search target settings polls).verdict = .error e) :
    checkReach program label settings polls = .error e := by
  rw [checkReach, hcheck]
  change (program.search target settings polls).verdict.bind _ = .error e
  rw [hverdict]
  rfl

/-- A search has the result with which it ends within some hundred iterations. -/
theorem Program.search_eq_of_endsWithin {target : Target} {n : Nat}
    {result : SearchResult State CheckError}
    (h : Search.EndsWithin (program.stateSpace settings.io) target.holds settings.limits polls n
      result) (hn : n < 512) : program.search target settings polls = result := by
  have hrounds : 2 ^ 9 ≤ 2 ^ program.searchRounds settings.io :=
    Nat.pow_le_pow_right (by decide) (Nat.le_add_left 9 _)
  exact h.run_eq (by omega)

/-- A search is decided at once by an initial state that satisfies its target. -/
theorem checkReach_of_initial {target : Target} (hcheck : program.checkTarget label = .ok target)
    (hinitial : target.holdsAt 0 = true) :
    checkReach program label settings polls = .ok ⟨.unavoidable, ⟨0, 1, 0⟩⟩ := by
  refine checkReach_eq_ok.mpr ⟨target, hcheck, ?_⟩
  have hholds : target.holds (program.stateSpace settings.io).initial = true := hinitial
  rw [Program.search, Search.run, Search.start, if_pos hholds]

/-- Read a byte and write it. -/
def echo : Program := .ofTables [.read, .write] [] [(2, ["end"])]

/-- The check finds the first name where the numbers have begun anew, and takes it for the last. -/
theorem checkReach_crowded {count : Nat} (hcount : 0 < count) (hanew : count % UInt32.size = 0) :
    checkReach (crowded count) count.repr settings polls = .ok ⟨.unavoidable, ⟨0, 1, 0⟩⟩ := by
  obtain ⟨source, hsource⟩ := exists_source_crowded hcount
  obtain ⟨target, htarget, hinitial⟩ := exists_target_crowded hanew
  have hvalid := Program.validate_of_parse hsource
  exact checkReach_of_initial (Program.checkTarget_eq_ok.mpr ⟨htarget, hvalid⟩) hinitial

/-- The run past a loop stands in front of it and then behind it. -/
theorem pc_of_iterate_bypass {labels : List (Nat × List String)} {io : InputModel}
    {input : InputStream} {output : OutputStream} {n : Nat} {e : Execution}
    (h : Loop.iterate (Execution.step (bypass 2 labels) io none) n
      (.start io (.blank {}) input output) = .more e) : e.pc = 0 ∨ e.pc = 2 := by
  have hjump : Execution.step (bypass 2 labels) io none (.start io (.blank {}) input output) =
      .more { Execution.start io (.blank {}) input output with pc := 2, stats.steps := 1 } := rfl
  cases n with
  | zero =>
    cases h
    exact .inl rfl
  | succ n =>
    rw [Loop.iterate_of_step hjump] at h
    cases n with
    | zero =>
      cases h
      exact .inr rfl
    | succ n => cases h

/-- With one label more than there are numbers the check calls the last one unavoidable,
although no run ever stands at it. -/
theorem crowded_missed :
    ∃ source, Program.parse source = .ok (crowded UInt32.size) ∧
      (crowded UInt32.size).propositions.length = UInt32.size + 1 ∧
      checkReach (crowded UInt32.size) (Nat.repr UInt32.size) {} {} =
        .ok ⟨.unavoidable, ⟨0, 1, 0⟩⟩ ∧
      ∀ (bytes : List UInt8) (n : Nat) (e : Execution),
        Loop.iterate (Execution.step (crowded UInt32.size) {} none) n
          (.start {} (.blank {}) (.ofBytes bytes) {}) = .more e →
        Nat.repr UInt32.size ∉ (crowded UInt32.size).labelsAt e.pc := by
  have hcount : 0 < UInt32.size := by decide
  obtain ⟨source, hsource⟩ := exists_source_crowded hcount
  refine ⟨source, hsource, ?_, checkReach_crowded hcount (Nat.mod_self _), fun bytes n e he => ?_⟩
  · rw [propositions_crowded, List.length_map, List.length_range]
  · refine not_mem_labelsAt_crowded hcount ?_
    rcases pc_of_iterate_bypass he with hpc | hpc <;> omega

/-- The states that avoid a target are finitely many. -/
theorem Program.avoids_finite (program : Program) (io : InputModel) (target : Target) :
    {s | (program.stateSpace io).Avoids target.holds s}.Finite :=
  (confined_finite program io).subset fun _ hs => confined_of_reachable hs.reachable

/-- A state has at most 256 successors. -/
theorem Program.degree_le (program : Program) (io : InputModel) (s : State) :
    (program.stateSpace io).degree s ≤ 256 := by
  unfold TransitionSystem.degree
  split
  · rename_i next hnext
    exact length_successors_le hnext
  · exact Nat.zero_le _

/-- A search is granted as many iterations as the states that avoid the target can take. -/
theorem Program.iterations_le (program : Program) (io : InputModel) (target : Target) :
    1 + ∑ s ∈ (program.avoids_finite io target).toFinset, (1 + (program.stateSpace io).degree s) ≤
      2 ^ program.searchRounds io - 1 := by
  have hsubset : (program.avoids_finite io target).toFinset ⊆
      (confined_finite program io).toFinset :=
    Set.Finite.toFinset_subset_toFinset.mpr fun _ hs => confined_of_reachable hs.reachable
  have hcard : (program.avoids_finite io target).toFinset.card ≤ 2 ^ program.stateBits io :=
    (Finset.card_le_card hsubset).trans (card_confined_le program io)
  have hsum := Finset.sum_le_card_nsmul (program.avoids_finite io target).toFinset
    (fun s => 1 + (program.stateSpace io).degree s) 257
    fun s _ => by have hdegree := degree_le program io s; omega
  -- The bits of a state leave room for nine more: 1 + 257 * 2 ^ b is below 512 * 2 ^ b.
  have hpow : 2 ^ program.searchRounds io = 2 ^ program.stateBits io * 512 := by
    rw [searchRounds, pow_add, show 2 ^ 9 = 512 from rfl]
  have hpos : 0 < 2 ^ program.stateBits io := Nat.two_pow_pos _
  rw [smul_eq_mul] at hsum
  omega

/-- A search ends within one iteration more than it takes to close each state that avoids the
target and to try each of its successors. -/
theorem Program.search_endsWithin (program : Program) (target : Target) (settings : Settings)
    (polls : Polls) :
    Search.EndsWithin (program.stateSpace settings.io) target.holds settings.limits polls
      (1 + ∑ s ∈ (program.avoids_finite settings.io target).toFinset,
        (1 + (program.stateSpace settings.io).degree s))
      (program.search target settings polls) := by
  have hstate : ∀ s, (program.stateSpace settings.io).Avoids target.holds s →
      s ∈ (program.avoids_finite settings.io target).toFinset :=
    fun s hs => (Set.Finite.mem_toFinset _).mpr hs
  obtain ⟨r, hends⟩ := Search.exists_endsWithin settings.limits polls hstate
  have hrun : program.search target settings polls = r :=
    hends.run_eq (program.iterations_le settings.io target)
  rwa [hrun]

/-- A check without limits has a definite answer, if the successors of the states that avoid
its target are known. -/
theorem exists_checkReach_of_known {target : Target}
    (hcheck : program.checkTarget label = .ok target)
    (hknown : ∀ s, (program.stateSpace settings.io).Avoids target.holds s →
      ∃ next, (program.stateSpace settings.io).successors s = .ok next)
    (hstates : settings.maxStates = none) (htime : settings.timeLimit = none)
    (hcancel : ∀ n, polls.cancelled n = false) :
    ∃ analysis, checkReach program label settings polls = .ok analysis ∧
      program.search target settings polls = ⟨.ok analysis.verdict, analysis.stats⟩ ∧
      (analysis.verdict = .unavoidable ∨ ∃ lasso, analysis.verdict = .counterexample lasso) := by
  obtain ⟨verdict, hverdict, hdefinite⟩ :=
    (program.search_endsWithin target settings polls).definite hknown hstates htime hcancel
  refine ⟨⟨verdict, (program.search target settings polls).stats⟩, ?_, hverdict, hdefinite⟩
  exact checkReach_eq_ok.mpr ⟨target, hcheck, hverdict⟩

/-- A check without limits always has a definite answer. For every label of an accepted
program, in which some position follows the target of every jump, the search ends, within one
iteration more than it takes to close each state that avoids the target and to try each of
its successors. -/
theorem checkReach_definite (hprogram : program.validate = .ok ()) (hrange : program.InRange)
    (hlabel : program.hasLabel label = true) (hstates : settings.maxStates = none)
    (htime : settings.timeLimit = none) (hcancel : ∀ n, polls.cancelled n = false) :
    ∃ target, program.checkTarget label = .ok target ∧
      ∃ hfinite : {s | (program.stateSpace settings.io).Avoids target.holds s}.Finite,
      ∃ analysis, checkReach program label settings polls = .ok analysis ∧
        Search.EndsWithin (program.stateSpace settings.io) target.holds settings.limits polls
          (1 + ∑ s ∈ hfinite.toFinset, (1 + (program.stateSpace settings.io).degree s))
          ⟨.ok analysis.verdict, analysis.stats⟩ ∧
        (analysis.verdict = .unavoidable ∨ ∃ lasso, analysis.verdict = .counterexample lasso) := by
  obtain ⟨target, hcheck⟩ := Program.exists_checkTarget hprogram hlabel
  obtain ⟨analysis, hanalysis, hsearch, hdefinite⟩ := exists_checkReach_of_known hcheck
    (fun s hs => Program.exists_successors hprogram hrange hs.reachable) hstates htime hcancel
  have hends := program.search_endsWithin target settings polls
  rw [hsearch] at hends
  exact ⟨target, hcheck, program.avoids_finite settings.io target, analysis, hanalysis, hends,
    hdefinite⟩

/-- Set one cell after the other for as long as the next one is not zero. -/
def filling : Program :=
  .ofTables [.increment, .jumpIfZero, .moveRight, .increment, .jumpIfNonZero] [(1, 5), (4, 2)]
    [(5, ["end"])]

/-- The loop that fills the tape over and over has a definite answer. -/
theorem filling_definite :
    Program.parse "+[>+]_end_" = .ok filling ∧ filling.validate = .ok () ∧
      filling.InRange ∧ filling.hasLabel "end" = true ∧
      ∃ target, filling.checkTarget "end" = .ok target ∧
        ∃ hfinite : {s | (filling.stateSpace {}).Avoids target.holds s}.Finite,
        ∃ analysis, checkReach filling "end" {} {} = .ok analysis ∧
          Search.EndsWithin (filling.stateSpace {}) target.holds {} {}
            (1 + ∑ s ∈ hfinite.toFinset, (1 + (filling.stateSpace {}).degree s))
            ⟨.ok analysis.verdict, analysis.stats⟩ ∧
          (analysis.verdict = .unavoidable ∨
            ∃ lasso, analysis.verdict = .counterexample lasso) := by
  have hparse : Program.parse "+[>+]_end_" = .ok filling := by rfl
  have hvalid := Program.validate_of_parse hparse
  have hrange := Program.inRange_of_parse hparse
  have hlabel : filling.hasLabel "end" = true := by rfl
  have hstates : ({} : Settings).maxStates = none := rfl
  have hcancel : ∀ n, ({} : Polls).cancelled n = false := fun _ => rfl
  exact ⟨hparse, hvalid, hrange, hlabel,
    checkReach_definite hvalid hrange hlabel hstates rfl hcancel⟩

end TapeReach
