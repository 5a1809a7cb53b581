import TapeReach.Proofs.Lasso.Invariant

/-!
# What the verdicts of a search mean

A search that calls its target unavoidable has closed the initial state, so
every run meets the target. A search that gives a counterexample gives a run
that never does: a path of distinct states from the initial state, none of
which satisfies the target, that ends in a cycle or in a dead end. Neither
verdict depends on the limits, on the polls or on the size of the system.
-/

namespace TapeReach

/-- The lasso is a run that avoids the target for ever. -/
structure Lasso.Refutes {σ ε : Type} (lasso : Lasso σ) (system : TransitionSystem σ ε)
    (isTarget : σ → Bool) : Prop where
  /-- It has states. -/
  nonempty : lasso.states ≠ []
  /-- It starts in the initial state. -/
  first : lasso.states.head? = some system.initial
  /-- It has no repeats. -/
  distinct : lasso.states.Nodup
  /-- Each state is among the successors of the one before it. -/
  linked : lasso.states.IsChain system.Leads
  /-- No state satisfies the target. -/
  avoids : ∀ s ∈ lasso.states, isTarget s = false
  /-- The cycle has states. -/
  cycleNonempty : lasso.cycle ≠ []
  /-- The last state of a cycle leads back to its first. -/
  closes : lasso.kind = .cycle → ∃ first last, lasso.cycle.head? = some first ∧
    lasso.cycle.getLast? = some last ∧ system.Leads last first
  /-- A dead end is a single state without successors. -/
  stops : lasso.kind = .deadEnd → ∃ s, lasso.cycle = [s] ∧ system.successors s = .ok []

namespace Search

variable {σ ε : Type} {system : TransitionSystem σ ε} {isTarget : σ → Bool}

/-- An initial state that has neither the target nor successors is a run by itself. -/
theorem refutes_initial (ht : isTarget system.initial = false)
    (hnext : system.successors system.initial = .ok []) :
    Lasso.Refutes ⟨[], [system.initial], .deadEnd⟩ system isTarget where
  nonempty := List.cons_ne_nil _ _
  first := rfl
  distinct := List.nodup_singleton _
  linked := List.isChain_singleton _
  avoids s hs := by rw [List.mem_singleton.mp hs]; exact ht
  cycleNonempty := List.cons_ne_nil _ _
  closes hkind := nomatch hkind
  stops _ := ⟨_, rfl, hnext⟩

variable [BEq σ] [Hashable σ]

/-- The cycle that a successor on the path closes avoids the target for ever. -/
theorem Invariant.refutes_cycle {s : Search σ} (h : Invariant system isTarget s)
    {front : Array (Frame σ)} {x y : σ} {rest : List σ} {i : Nat}
    (hs : s.stack = front.push ⟨x, y :: rest⟩) (hi : s.onStack[y]? = some i) :
    Lasso.Refutes ⟨s.path.take i, s.path.drop i, .cycle⟩ system isTarget := by
  have hstates : Lasso.states ⟨s.path.take i, s.path.drop i, .cycle⟩ = s.path :=
    List.take_append_drop i s.path
  have hy : s.path[i]? = some y := (h.indexed y i).mp hi
  have hlt : i < s.path.length := (List.getElem?_eq_some_iff.mp hy).1
  have hne : s.path ≠ [] := List.ne_nil_of_length_pos (by omega)
  have hlast : s.path.getLast? = some x := by
    rw [path_of_push hs, List.getLast?_concat]
  refine
    { nonempty := hstates.symm ▸ hne
      first := ?_
      distinct := hstates.symm ▸ h.indexed.nodup
      linked := hstates.symm ▸ h.linked
      avoids := hstates.symm ▸ fun z hz => (h.avoids z hz).not_target
      cycleNonempty := ?_
      closes := fun _ => ⟨y, x, ?_, ?_, h.leads_next hs⟩
      stops := fun hkind => nomatch hkind }
  · rw [hstates, List.head?_eq_some_head hne, Option.some.injEq]
    exact h.first _ (List.head?_eq_some_head hne)
  · exact List.ne_nil_of_length_pos (by rw [List.length_drop]; omega)
  · rw [List.head?_drop, hy]
  · rw [List.getLast?_drop, if_neg (by omega), hlast]

variable [LawfulBEq σ] {limits : Limits} {polls : Polls} {rounds : Nat} {lasso : Lasso σ}

/-- The path to a new state without successors avoids the target to its end. -/
theorem Invariant.refutes_deadEnd {s : Search σ} (h : Invariant system isTarget s)
    {front : Array (Frame σ)} {x y : σ} {rest : List σ}
    (hs : s.stack = front.push ⟨x, y :: rest⟩) (ht : isTarget y = false)
    (hon : s.onStack[y]? = none) (hnext : system.successors y = .ok []) :
    Lasso.Refutes ⟨s.path, [y], .deadEnd⟩ system isTarget where
  nonempty := List.concat_ne_nil _ _
  first := h.first_next hs
  distinct := (h.indexed.push (h.indexed.not_mem hon)).nodup
  linked := h.linked_next hs
  avoids z hz := (h.avoids_next hs ht z hz).not_target
  cycleNonempty := List.cons_ne_nil _ _
  closes hkind := nomatch hkind
  stops _ := ⟨y, rfl, hnext⟩

/-- A target that is called unavoidable is inevitable from the initial state. -/
theorem inevitable_of_unavoidable
    (h : (run system isTarget limits polls rounds).verdict = .ok .unavoidable) :
    system.Inevitable isTarget system.initial := by
  rcases run_ends (r := run system isTarget limits polls rounds) rfl with
    hstart | ⟨s, hs, hend⟩ | hlimit
  · rcases start_done hstart with ⟨ht, _⟩ | ⟨_, ⟨e, _, hr⟩ | ⟨_, hr⟩⟩
    · exact .here ht
    · rw [hr] at h
      cases h
    · rw [hr] at h
      cases h
  · generalize run system isTarget limits polls rounds = r at h hend
    cases hend with
    | exhausted hstack =>
      rcases hs.seen with hp | hc
      · simp only [path, hstack, List.map_nil, List.not_mem_nil] at hp
      · exact hs.closedInevitable _ hc
    | polled => cases h
    | cycle => cases h
    | limited => cases h
    | failed => cases h
    | deadEnd => cases h
  · rw [hlimit] at h
    cases h

/-- Every run meets a target that a search calls unavoidable: each run that goes on for
ever and each run that stops in a state without successors contains a target state. -/
theorem run_unavoidable_sound
    (h : (run system isTarget limits polls rounds).verdict = .ok .unavoidable) :
    (∀ run : Nat → σ, system.IsInfiniteRun run → ∃ n, isTarget (run n) = true) ∧
      ∀ run : List σ, system.IsFiniteRun run → ∃ s ∈ run, isTarget s = true := by
  have hinitial := inevitable_of_unavoidable h
  exact ⟨fun _ hrun => hrun.meets hinitial, fun _ hrun => hrun.meets hinitial⟩

/-- Counting up without end, each step listed twice. -/
def counting : TransitionSystem Nat Unit := ⟨0, fun n => .ok [n + 1, n + 1]⟩

/-- Two cannot be avoided when counting up. -/
theorem counting_unavoidable :
    (run counting (· == 2) {} {} 3).verdict = .ok .unavoidable ∧
      (∀ run : Nat → Nat, counting.IsInfiniteRun run → ∃ n, (run n == 2) = true) ∧
      ∀ run : List Nat, counting.IsFiniteRun run → ∃ s ∈ run, (s == 2) = true := by
  have h : (run counting (· == 2) {} {} 3).verdict = .ok .unavoidable := by
    simp [run, counting, start, enter, Loop.rounds_eq_iterate, Loop.iterate, step, consider,
      poll?, pollInterval, answer, push, close, Limits.forbid?]
  exact ⟨h, run_unavoidable_sound h⟩

/-- Every counterexample of a search is a run that avoids the target for ever. -/
theorem run_counterexample_valid
    (h : (run system isTarget limits polls rounds).verdict = .ok (.counterexample lasso)) :
    lasso.Refutes system isTarget := by
  rcases run_ends (r := run system isTarget limits polls rounds) rfl with
    hstart | ⟨s, hs, hend⟩ | hlimit
  · rcases start_done hstart with ⟨_, hr⟩ | ⟨ht, ⟨e, _, hr⟩ | ⟨hnext, hr⟩⟩
    · rw [hr] at h
      cases h
    · rw [hr] at h
      cases h
    · rw [hr] at h
      cases h
      exact refutes_initial ht hnext
  · generalize run system isTarget limits polls rounds = r at h hend
    cases hend with
    | cycle hstack _ hi =>
      cases h
      exact hs.refutes_cycle hstack hi
    | deadEnd hstack ht hon _ _ hnext =>
      cases h
      exact hs.refutes_deadEnd hstack ht hon hnext
    | polled => cases h
    | exhausted => cases h
    | limited => cases h
    | failed => cases h
  · rw [hlimit] at h
    cases h

/-- From zero to two and back to one, for ever. -/
def returning : TransitionSystem Nat Unit :=
  ⟨0, fun n => .ok (if n = 2 then [1] else [n + 1])⟩

/-- Seven is avoided by a cycle behind a stem. -/
theorem returning_counterexample :
    (run returning (· == 7) {} {} 2).verdict =
        .ok (.counterexample ⟨[0], [1, 2], .cycle⟩) ∧
      Lasso.Refutes ⟨[0], [1, 2], .cycle⟩ returning (· == 7) := by
  have h : (run returning (· == 7) {} {} 2).verdict =
      .ok (.counterexample ⟨[0], [1, 2], .cycle⟩) := by
    simp [run, returning, start, enter, Loop.rounds_eq_iterate, Loop.iterate, step, consider,
      poll?, pollInterval, answer, push, path, Limits.forbid?, Std.HashMap.getElem_insert]
  exact ⟨h, run_counterexample_valid h⟩

end Search

end TapeReach
