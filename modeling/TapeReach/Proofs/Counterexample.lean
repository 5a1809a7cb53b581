import TapeReach.Proofs.Check
import TapeReach.Proofs.Execution.Replay
import TapeReach.Proofs.Lasso.Unrolling

/-!
# Counterexamples can be run

A check that gives a counterexample gives a lasso through the state space
that avoids the label. Unless the lasso ends at a read that is blocked, it is
the course of a concrete run: for as many steps as one likes there is an
input on which the run goes through the states of the lasso, around its cycle
again and again, and never stands at the label. A run into a dead end halts
there without a failure.
-/

namespace TapeReach

namespace Search

variable {σ ε : Type} [BEq σ] [Hashable σ] [LawfulBEq σ] {system : TransitionSystem σ ε}
  {isTarget : σ → Bool} {limits : Limits} {polls : Polls} {lasso : Lasso σ}

/-- An iteration that ends with a lasso has found a run that avoids the target. -/
theorem Invariant.refutes_of_ending {s : Search σ} (h : Invariant system isTarget s)
    {r : SearchResult σ ε} (hend : Ending system isTarget limits polls s r)
    (hr : r.verdict = .ok (.counterexample lasso)) : lasso.Refutes system isTarget := by
  cases hend with
  | cycle hs _ hi =>
    cases hr
    exact h.refutes_cycle hs hi
  | deadEnd hs ht hon _ _ hnext =>
    cases hr
    exact h.refutes_deadEnd hs ht hon hnext
  | polled | exhausted | limited | failed => cases hr

end Search

variable {program : Program} {label : String} {settings : Settings} {polls : Polls}
  {io : InputModel} {lasso : Lasso State}

/-- The counterexample of a check avoids the positions of the label. -/
theorem refutes_of_checkReach {analysis : Analysis}
    (h : checkReach program label settings polls = .ok analysis)
    (hverdict : analysis.verdict = .counterexample lasso) :
    ∃ target, (Labeling.ofProgram program).target label = .ok target ∧
      lasso.Refutes (program.stateSpace settings.io) target.holds := by
  obtain ⟨target, htarget, hsearch⟩ := checkReach_eq_ok.mp h
  refine ⟨target, (Program.checkTarget_eq_ok.mp htarget).1, ?_⟩
  rw [hverdict] at hsearch
  generalize analysis.stats = stats at hsearch
  rcases Search.run_ends hsearch with hstart | ⟨s, hs, hend⟩ | hlimit
  · rcases Search.start_done hstart with ⟨_, hr⟩ | ⟨ht, ⟨_, _, hr⟩ | ⟨hnext, hr⟩⟩
    · cases hr
    · cases hr
    · cases hr
      exact Search.refutes_initial ht hnext
  · exact hs.refutes_of_ending hend rfl
  · cases hlimit

/-- The next instruction of the state is a read that never completes. -/
def Program.BlockedAt (program : Program) (io : InputModel) (s : State) : Prop :=
  program.instructionAt? s.pc = some .read ∧ io.possibleReads s.readsLeft = .blocked

/-- A state without successors that is not blocked is behind the last instruction. -/
theorem Program.instructionAt?_eq_none_of_stuck {s : State}
    (hstuck : (program.stateSpace io).successors s = .ok []) (hopen : ¬ program.BlockedAt io s) :
    program.instructionAt? s.pc = none := by
  change program.successors io s = .ok [] at hstuck
  cases hi : program.instructionAt? s.pc with
  | none => rfl
  | some i =>
    rw [successors_of_instruction hi] at hstuck
    cases i with
    | moveLeft | increment | decrement | write => cases hstuck
    | moveRight =>
      obtain ⟨_, _, hnext⟩ := right_cases hstuck
      cases hnext
    | read =>
      simp only [perform, Except.ok.injEq, List.map_eq_nil_iff] at hstuck
      refine absurd ⟨hi, ?_⟩ hopen
      cases hreads : io.possibleReads s.readsLeft with
      | blocked => rfl
      | any => simp [hreads, PossibleReads.toList] at hstuck
      | eof b => simp [hreads, PossibleReads.toList] at hstuck
    | jumpIfZero | jumpIfNonZero =>
      rcases branch_cases hstuck with ⟨_, hnext⟩ | ⟨_, _, _, hnext⟩ <;> cases hnext

/-- There is an input on which a run goes along a lasso for `n` steps, and has then used
it up. -/
theorem Lasso.Refutes.exists_input {isTarget : State → Bool}
    (h : lasso.Refutes (program.stateSpace io) isTarget) {n : Nat}
    (hn : lasso.kind = .cycle ∨ n < lasso.length) {output : OutputStream}
    (hcapacity : output.capacity = none) (hflush : output.failsOnFlush = false) :
    ∃ bytes : List UInt8,
      (∀ k ≤ n, ∃ s ∈ lasso.states, ∃ e, lasso.stateAt? k = some s ∧ e.Matches s ∧
        Loop.iterate (Execution.step program io none) k
          (.start io (.blank {}) (.ofBytes bytes) output) = .more e) ∧
      ∃ s e, lasso.stateAt? n = some s ∧ e.Replays s [] ∧
        Loop.iterate (Execution.step program io none) n
          (.start io (.blank {}) (.ofBytes bytes) output) = .more e := by
  have hstate : ∀ k ≤ n, ∃ s ∈ lasso.states, lasso.stateAt? k = some s :=
    fun k hk => h.exists_stateAt (hn.imp_right (by omega))
  -- Behind the end of a dead end the path is of no interest.
  let path : Nat → State := fun k => (lasso.stateAt? k).getD (.initial io.maxReads)
  have hpath : ∀ k < n, (program.stateSpace io).Leads (path k) (path (k + 1)) := by
    intro k hk
    obtain ⟨s, _, hs⟩ := hstate k (by omega)
    obtain ⟨t, _, ht⟩ := hstate (k + 1) (by omega)
    simp only [path, hs, ht, Option.getD_some]
    exact h.leads hs ht
  have hfirst : path 0 = .initial io.maxReads := by
    simp only [path, h.stateAt_zero, Option.getD_some]
    rfl
  obtain ⟨bytes, hbytes⟩ := Execution.exists_input_of_path hpath
  have hstart := Execution.replays_start io bytes hcapacity hflush
  rw [← hfirst, ← List.append_nil bytes] at hstart
  obtain ⟨hvisits, e, he, hreplays⟩ := hbytes _ _ hstart
  rw [List.append_nil] at hvisits he
  refine ⟨bytes, fun k hk => ?_, ?_⟩
  · obtain ⟨s, hmem, hs⟩ := hstate k hk
    obtain ⟨e', he', hmatches⟩ := hvisits k hk
    simp only [path, hs, Option.getD_some] at hmatches
    exact ⟨s, hmem, e', hs, hmatches, he'⟩
  · obtain ⟨s, _, hs⟩ := hstate n (Nat.le_refl n)
    simp only [path, hs, Option.getD_some] at hreplays
    exact ⟨s, e, hs, hreplays, he⟩

/-- After `k` steps the run stands in the `k`-th state of the lasso, and not at the label. -/
def Execution.Visits (program : Program) (io : InputModel) (label : String) (lasso : Lasso State)
    (first : Execution) (k : Nat) : Prop :=
  ∃ s e, lasso.stateAt? k = some s ∧ Loop.iterate (step program io none) k first = .more e ∧
    e.Matches s ∧ label ∉ program.labelsAt e.pc

/-- A counterexample that does not end at a blocked read can be run. If the lasso has a
cycle, then for every number of steps there is an input on which the run goes through the
states of the lasso and around its cycle. If it ends in a dead end that is no blocked read,
then there is an input on which the run goes through all its states and halts without a
failure in the last one. Neither run ever stands at the label. -/
theorem checkReach_counterexample_executable {source : String} {analysis : Analysis}
    {output : OutputStream} (hsource : Program.parse source = .ok program)
    (h : checkReach program label settings polls = .ok analysis)
    (hverdict : analysis.verdict = .counterexample lasso)
    (hcapacity : output.capacity = none) (hflush : output.failsOnFlush = false) :
    (lasso.kind = .cycle → ∀ n, ∃ bytes : List UInt8, ∀ k ≤ n,
      Execution.Visits program settings.io label lasso
        (.start settings.io (.blank {}) (.ofBytes bytes) output) k) ∧
    (lasso.kind = .deadEnd →
      (∀ s, lasso.cycle.getLast? = some s → ¬ program.BlockedAt settings.io s) →
      ∃ bytes : List UInt8,
      (∀ k < lasso.length, Execution.Visits program settings.io label lasso
        (.start settings.io (.blank {}) (.ofBytes bytes) output) k) ∧
      ∃ s e, lasso.cycle = [s] ∧ program.size ≤ s.pc ∧ e.Matches s ∧
        Loop.iterate (Execution.step program settings.io none) (lasso.length - 1)
          (.start settings.io (.blank {}) (.ofBytes bytes) output) = .more e ∧
        Loop.iterate (Execution.step program settings.io none) lasso.length
          (.start settings.io (.blank {}) (.ofBytes bytes) output) = .done ⟨.ok e.stats, e⟩) := by
  obtain ⟨target, htarget, hlasso⟩ := refutes_of_checkReach h hverdict
  have hlabel : ∀ s ∈ lasso.states, label ∉ program.labelsAt s.pc := by
    intro s hs hmem
    have hpc := Program.pc_le_of_parse hsource (hlasso.reachable hs)
    have hholds := Labeling.target_holdsAt_of_mem htarget hpc hmem
    exact Bool.false_ne_true ((hlasso.avoids s hs).symm.trans hholds)
  constructor
  · intro hkind n
    obtain ⟨bytes, hvisits, _⟩ := hlasso.exists_input (.inl hkind) hcapacity hflush (n := n)
    refine ⟨bytes, fun k hk => ?_⟩
    obtain ⟨s, hmem, e, hs, hmatches, he⟩ := hvisits k hk
    exact ⟨s, e, hs, he, hmatches, hmatches.pc ▸ hlabel s hmem⟩
  · intro hkind hopen
    obtain ⟨s, hcycle, hstuck⟩ := hlasso.stops hkind
    have hlength : lasso.length = lasso.stem.length + 1 := by
      rw [Lasso.length, hcycle, List.length_singleton]
    obtain ⟨bytes, hvisits, t, e, ht, hreplays, he⟩ :=
      hlasso.exists_input (n := lasso.length - 1) (.inr (by omega)) hcapacity hflush
    have hlast : t = s := by
      simp only [Lasso.stateAt?, Lasso.position, hkind, Lasso.states, hcycle, hlength,
        Nat.add_sub_cancel, List.getElem?_concat_length, Option.some.injEq] at ht
      exact ht.symm
    rw [hlast] at hreplays
    have hhalted := Program.instructionAt?_eq_none_of_stuck hstuck
      (hopen s (by rw [hcycle, List.getLast?_singleton]))
    refine ⟨bytes, fun k hk => ?_, s, e, hcycle, ?_, hreplays.matches, he, ?_⟩
    · obtain ⟨s, hmem, e, hs, hmatches, he⟩ := hvisits k (by omega)
      exact ⟨s, e, hs, he, hmatches, hmatches.pc ▸ hlabel s hmem⟩
    · exact Array.getElem?_eq_none_iff.mp hhalted
    · have hend := (Loop.iterate_succ_of_more he).trans (hreplays.halts hhalted)
      rwa [Nat.sub_add_cancel (by omega)] at hend

/-- A search that finds its way out of a loop first and back into it next. -/
theorem Search.endsWithin_second_branch {σ ε : Type} [BEq σ] [Hashable σ] [LawfulBEq σ]
    {system : TransitionSystem σ ε} {isTarget : σ → Bool} {s head out back last : σ}
    {rest : List σ} (hinitial : system.successors system.initial = .ok [s])
    (hs : system.successors s = .ok [head])
    (hhead : system.successors head = .ok (out :: back :: rest))
    (hout : system.successors out = .ok [last]) (hback : system.successors back = .ok [head])
    (htargets : isTarget system.initial = false ∧ isTarget s = false ∧ isTarget head = false ∧
      isTarget out = false ∧ isTarget back = false ∧ isTarget last = true)
    (hdistinct : [system.initial, s, head, out, back].Nodup) :
    EndsWithin system isTarget {} {} 7
      ⟨.ok (.counterexample ⟨[system.initial, s], [head, back], .cycle⟩), ⟨5, 5, 4⟩⟩ := by
  obtain ⟨h0, h1, h2, h3, h4, h5⟩ := htargets
  simp only [List.nodup_cons, List.mem_cons, List.not_mem_nil, or_false, not_or] at hdistinct
  have houtHead : out ≠ head := Ne.symm hdistinct.2.2.1.1
  have hbackHead : back ≠ head := Ne.symm hdistinct.2.2.1.2
  refine .inr ⟨_, start_of_ne h0 hinitial (List.cons_ne_nil _ _), ?_⟩
  -- The way out is entered first, and closed again when it has led to the target.
  refine Loop.iterate_done_of_step
    (step_enter rfl rfl h1 ?_ Std.HashSet.not_mem_empty rfl hs (List.cons_ne_nil _ _)) ?_
  · simp [hdistinct]
  refine Loop.iterate_done_of_step
    (step_enter rfl rfl h2 ?_ Std.HashSet.not_mem_empty rfl hhead (List.cons_ne_nil _ _)) ?_
  · simp [hdistinct]
  refine Loop.iterate_done_of_step
    (step_enter rfl rfl h3 ?_ Std.HashSet.not_mem_empty rfl hout (List.cons_ne_nil _ _)) ?_
  · simp [hdistinct]
  refine Loop.iterate_done_of_step (step_target rfl rfl h5) ?_
  refine Loop.iterate_done_of_step (step_push_nil rfl rfl) ?_
  -- The way back is entered next, and leads to a state of the path.
  refine Loop.iterate_done_of_step
    (step_enter rfl rfl h4 ?_ ?_ rfl hback (List.cons_ne_nil _ _)) ?_
  · simp [hdistinct]
  · simp [hdistinct]
  refine (Loop.iterate_succ_of_more rfl).trans (step_cycle (i := 2) rfl rfl h2 ?_)
  simp [Std.HashMap.getElem_insert, Std.HashMap.getElem_erase, houtHead, hbackHead]

/-- Read bytes until one is zero. -/
def draining : Program :=
  .ofTables [.increment, .jumpIfZero, .read, .jumpIfNonZero] [(1, 4), (3, 2)] [(4, ["end"])]

/-- The state in which the loop is entered. -/
def drainingEntry : State := ((State.initial none).write 1 1).jump 2

/-- The run on which the loop is never left, because every byte read is one. -/
def drainingLasso : Lasso State :=
  ⟨[.initial none, (State.initial none).write 1 1], [drainingEntry, drainingEntry.receive 3 1],
    .cycle⟩

/-- Reading the byte that is there leads back to where the loop was entered. -/
theorem drainingEntry_receive : (drainingEntry.receive 3 1).jump 2 = drainingEntry := by
  have hbuilt : drainingEntry.Built := ((State.Built.initial _).write _ _).jump _
  have hpc : 2 = drainingEntry.pc := rfl
  have hpointer : 0 = drainingEntry.pointer := rfl
  have hreads : none = drainingEntry.readsLeft := rfl
  refine ((hbuilt.receive 3 1).jump 2).canonical.ext hbuilt.canonical hpc hpointer hreads
    fun p => ?_
  change (drainingEntry.receive 3 1).cell p = drainingEntry.cell p
  rw [State.receive, State.cell_store]
  split
  · rename_i hp
    rw [hp]
    rfl
  · rfl

/-- The check finds the run on which the loop is never left. -/
theorem checkReach_draining (hparse : Program.parse "+[,]_end_" = .ok draining) :
    checkReach draining "end" {} {} = .ok ⟨.counterexample drainingLasso, ⟨5, 5, 4⟩⟩ := by
  have hlabel : draining.hasLabel "end" = true := by rfl
  obtain ⟨target, hcheck⟩ := Program.exists_checkTarget (Program.validate_of_parse hparse) hlabel
  have hfew : draining.propositions.length ≤ UInt32.size := by decide
  have hholds := Program.checkTarget_holdsAt_iff hfew hcheck
  have hinside : ∀ pc < 4, target.holdsAt pc = false := by
    intro pc hpc
    refine Bool.eq_false_iff.mpr fun hat => absurd ((hholds pc).mp hat).2 ?_
    have hcases : pc = 0 ∨ pc = 1 ∨ pc = 2 ∨ pc = 3 := by omega
    rcases hcases with rfl | rfl | rfl | rfl <;> decide
  have hend : target.holdsAt 4 = true := (hholds 4).mpr ⟨by decide, by decide⟩
  have hback : (draining.stateSpace {}).successors (drainingEntry.receive 3 1) =
      .ok [drainingEntry] := by
    have hnext : (draining.stateSpace {}).successors (drainingEntry.receive 3 1) =
        .ok [(drainingEntry.receive 3 1).jump 2] := rfl
    rw [hnext, drainingEntry_receive]
  have hhead : ∃ rest, (draining.stateSpace {}).successors drainingEntry =
      .ok (drainingEntry.receive 3 0 :: drainingEntry.receive 3 1 :: rest) := ⟨_, rfl⟩
  obtain ⟨rest, hhead⟩ := hhead
  have hout : (draining.stateSpace {}).successors (drainingEntry.receive 3 0) =
      .ok [(drainingEntry.receive 3 0).jump 4] := rfl
  -- The first four states are told apart by their positions, the last two by the byte read.
  have hdistinct : [State.initial none, (State.initial none).write 1 1, drainingEntry,
      drainingEntry.receive 3 0, drainingEntry.receive 3 1].Nodup := by
    refine List.Nodup.of_map (fun s => (s.pc, s.current)) ?_
    decide
  have hends : Search.EndsWithin (draining.stateSpace {}) target.holds {} {} 7
      ⟨.ok (.counterexample drainingLasso), ⟨5, 5, 4⟩⟩ :=
    Search.endsWithin_second_branch rfl rfl hhead hout hback
      ⟨hinside 0 (by decide), hinside 1 (by decide), hinside 2 (by decide), hinside 3 (by decide),
        hinside 3 (by decide), hend⟩ hdistinct
  exact checkReach_eq_ok.mpr ⟨target, hcheck, Program.search_eq_of_endsWithin hends (by decide)⟩

/-- A search that runs into a dead end. -/
theorem Search.endsWithin_dead_end {σ ε : Type} [BEq σ] [Hashable σ] [LawfulBEq σ]
    {system : TransitionSystem σ ε} {isTarget : σ → Bool} {s : σ}
    (hinitial : system.successors system.initial = .ok [s]) (hs : system.successors s = .ok [])
    (hfirst : isTarget system.initial = false) (hlast : isTarget s = false)
    (hne : system.initial ≠ s) :
    EndsWithin system isTarget {} {} 1
      ⟨.ok (.counterexample ⟨[system.initial], [s], .deadEnd⟩), ⟨2, 2, 1⟩⟩ := by
  refine .inr ⟨_, start_of_ne hfirst hinitial (List.cons_ne_nil _ _), ?_⟩
  refine (Loop.iterate_succ_of_more rfl).trans
    (step_deadEnd rfl rfl hlast ?_ Std.HashSet.not_mem_empty rfl hs)
  simp [hne]

/-- Only the inside of a loop has a label. -/
def inside : List (Nat × List String) := [(1, ["in"])]

/-- The run past the loop. -/
def bypassLasso (landing : Nat) : Lasso State :=
  ⟨[.initial none], [(State.initial none).jump landing], .deadEnd⟩

/-- The label inside the loop has a target that holds neither in front of the loop nor behind it. -/
theorem exists_target_bypass {landing : Nat} (hvalid : (bypass landing inside).validate = .ok ())
    (hlanding : 2 ≤ landing) :
    ∃ target, (bypass landing inside).checkTarget "in" = .ok target ∧
      target.holdsAt 0 = false ∧ target.holdsAt landing = false := by
  have hlabel : (bypass landing inside).hasLabel "in" = true := by rfl
  have hone : (bypass landing inside).propositions = ["in"] := by rfl
  obtain ⟨target, hcheck⟩ := Program.exists_checkTarget hvalid hlabel
  have hholds := Program.checkTarget_holdsAt_iff (hone ▸ by decide) hcheck
  refine ⟨target, hcheck, ?_, ?_⟩
  · exact Bool.eq_false_iff.mpr fun hat => List.not_mem_nil ((hholds 0).mp hat).2
  · refine Bool.eq_false_iff.mpr fun hat => ?_
    obtain ⟨hle, hmem⟩ := (hholds landing).mp hat
    have heq : landing = 2 := Nat.le_antisymm hle hlanding
    subst heq
    exact List.not_mem_nil hmem

/-- The jump past the loop leads to another state. -/
theorem initial_ne_jump {landing : Nat} (hlanding : 2 ≤ landing) :
    State.initial none ≠ (State.initial none).jump landing := by
  intro heq
  have hpc : 0 = landing := congrArg State.pc heq
  omega

/-- The check finds the run past the loop, however far behind it the jump leads, as long as
some position follows. -/
theorem checkReach_bypass {landing : Nat} (hvalid : (bypass landing inside).validate = .ok ())
    (hlanding : 2 ≤ landing) (hnext : landing + 1 < UInt64.size) :
    checkReach (bypass landing inside) "in" {} {} =
      .ok ⟨.counterexample (bypassLasso landing), ⟨2, 2, 1⟩⟩ := by
  obtain ⟨target, hcheck, hfirst, hlast⟩ := exists_target_bypass hvalid hlanding
  have hstuck : ((bypass landing inside).stateSpace {}).successors
      ((State.initial none).jump landing) = .ok [] :=
    Program.successors_of_halted hlanding (.inr hnext)
  have hends : Search.EndsWithin ((bypass landing inside).stateSpace {}) target.holds {} {} 1
      ⟨.ok (.counterexample (bypassLasso landing)), ⟨2, 2, 1⟩⟩ :=
    Search.endsWithin_dead_end rfl hstuck hfirst hlast (initial_ne_jump hlanding)
  exact checkReach_eq_ok.mpr ⟨target, hcheck, Program.search_eq_of_endsWithin hends (by decide)⟩

/-- On enough input the loop that reads until it finds a zero goes on for any number of
steps, and the run past a loop halts in two steps. -/
theorem draining_executable :
    (Program.parse "+[,]_end_" = .ok draining ∧
      checkReach draining "end" {} {} = .ok ⟨.counterexample drainingLasso, ⟨5, 5, 4⟩⟩ ∧
      ∀ n, ∃ bytes : List UInt8, ∀ k ≤ n, Execution.Visits draining {} "end" drainingLasso
        (.start {} (.blank {}) (.ofBytes bytes) {}) k) ∧
    Program.parse "[_in_]" = .ok (bypass 2 inside) ∧
      checkReach (bypass 2 inside) "in" {} {} =
        .ok ⟨.counterexample (bypassLasso 2), ⟨2, 2, 1⟩⟩ ∧
      ∃ (bytes : List UInt8) (e : Execution),
        Loop.iterate (Execution.step (bypass 2 inside) {} none) 2
          (.start {} (.blank {}) (.ofBytes bytes) {}) = .done ⟨.ok e.stats, e⟩ := by
  have hdraining : Program.parse "+[,]_end_" = .ok draining := by rfl
  have hbypass : Program.parse "[_in_]" = .ok (bypass 2 inside) := by rfl
  have hloop := checkReach_draining hdraining
  have hpast := checkReach_bypass (Program.validate_of_parse hbypass) (Nat.le_refl 2) (by decide)
  have hopen : ∀ s, (bypassLasso 2).cycle.getLast? = some s →
      ¬ (bypass 2 inside).BlockedAt {} s := by
    rintro s hs ⟨hread, _⟩
    cases hs
    cases hread
  have hcapacity : ({} : OutputStream).capacity = none := rfl
  have hflush : ({} : OutputStream).failsOnFlush = false := rfl
  have hruns :=
    (checkReach_counterexample_executable hdraining hloop rfl hcapacity hflush).1 rfl
  obtain ⟨bytes, _, _, e, _, _, _, _, hhalts⟩ :=
    (checkReach_counterexample_executable hbypass hpast rfl hcapacity hflush).2 rfl hopen
  exact ⟨⟨hdraining, hloop, hruns⟩, hbypass, hpast, bytes, e, hhalts⟩

end TapeReach
