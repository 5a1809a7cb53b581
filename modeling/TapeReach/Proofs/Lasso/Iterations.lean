import Mathlib.Algebra.BigOperators.Group.Finset.Basic
import Mathlib.Algebra.GroupWithZero.Nat
import Mathlib.Algebra.Order.BigOperators.Group.Finset
import TapeReach.Proofs.Lasso.Invariant

/-!
# How many iterations a search takes

A state takes one iteration to close and one for each successor tried, and no
state is entered twice. So the iterations of a search are bounded by the
states that avoid the target, each counted with its successors, and one last
iteration to notice that the path is empty. A search without limits therefore
ends with a definite answer whenever these states are finitely many and their
successors are known.
-/

namespace TapeReach.Search

variable {σ ε : Type} [BEq σ] [Hashable σ]

/-- Iterations spent so far: closed states with all their successors, and the
successors tried from the states of the path. -/
def spent (system : TransitionSystem σ ε) (s : Search σ) : Nat :=
  (s.closed.toList.map fun x => 1 + system.degree x).sum +
    (s.stack.toList.map fun frame => system.degree frame.state - frame.pending.length).sum

/-- The search ends with the result within a number of iterations. -/
def EndsWithin (system : TransitionSystem σ ε) (isTarget : σ → Bool) (limits : Limits)
    (polls : Polls) (n : Nat) (result : SearchResult σ ε) : Prop :=
  start system isTarget = .done result ∨
    ∃ first, start system isTarget = .more first ∧
      Loop.iterate (step system isTarget limits polls) n first = .done result

variable {system : TransitionSystem σ ε} {isTarget : σ → Bool} {limits : Limits} {polls : Polls}

/-- What is spent on a path with a given last frame. -/
theorem spent_of_push {s : Search σ} {front : Array (Frame σ)} {x : σ} {pending : List σ}
    (hs : s.stack = front.push ⟨x, pending⟩) :
    spent system s = (s.closed.toList.map fun y => 1 + system.degree y).sum +
      ((front.toList.map fun frame => system.degree frame.state - frame.pending.length).sum +
        (system.degree x - pending.length)) := by
  simp only [spent, hs, Array.toList_push, List.map_append, List.sum_append, List.map_cons,
    List.map_nil, List.sum_cons, List.sum_nil, Nat.add_zero]

/-- No more successors are pending than there are. -/
theorem Invariant.pending_le {s : Search σ} (h : Invariant system isTarget s)
    {front : Array (Frame σ)} {x : σ} {pending : List σ}
    (hs : s.stack = front.push ⟨x, pending⟩) : pending.length ≤ system.degree x := by
  obtain ⟨tried, hnext, _, _⟩ := h.tried_last hs
  rw [TransitionSystem.degree_eq hnext, List.length_append]
  omega

/-- A search that is granted the iterations it needs gives its result. -/
theorem EndsWithin.run_eq {n rounds : Nat} {r : SearchResult σ ε}
    (h : EndsWithin system isTarget limits polls n r) (hn : n ≤ 2 ^ rounds - 1) :
    run system isTarget limits polls rounds = r := by
  rcases h with hstart | ⟨first, hstart, hdone⟩
  · simp only [run, hstart]
  · have hrounds := Loop.iterate_eq_done_of_le hdone hn
    simp only [run, hstart, Loop.rounds_eq_iterate, Nat.mul_one, hrounds]

variable [LawfulBEq σ]

/-- Each iteration that goes on spends one. -/
theorem Advance.spent_eq {s s' : Search σ} (h : Invariant system isTarget s)
    (ha : Advance system isTarget limits s s') : spent system s' = spent system s + 1 := by
  cases ha with
  | @close front x hs =>
    have hperm := h.toList_insert_perm (mem_path_of_push hs)
    have hclosed := (hperm.map fun y => 1 + system.degree y).sum_eq
    rw [List.map_cons, List.sum_cons] at hclosed
    rw [spent_of_push hs]
    simp only [spent, List.length_nil]
    omega
  | @skip front x y rest hs _ =>
    have hle := h.pending_le hs
    rw [List.length_cons] at hle
    rw [spent_of_push hs, spent_of_push rfl, List.length_cons]
    dsimp only
    omega
  | @enter front x y rest next hs _ _ _ _ hnext _ =>
    have hle := h.pending_le hs
    rw [List.length_cons] at hle
    rw [spent_of_push hs, spent_of_push rfl, List.length_cons, Array.toList_push, List.map_append,
      List.sum_append, TransitionSystem.degree_eq hnext]
    simp only [List.map_cons, List.map_nil, List.sum_cons, List.sum_nil]
    omega

/-- The invariant of a search together with the count of its iterations. -/
structure Counted (system : TransitionSystem σ ε) (isTarget : σ → Bool) (s : Search σ) :
    Prop extends Invariant system isTarget s where
  /-- Every iteration has been spent on a state. -/
  iterations : s.iterations = spent system s

/-- Every iteration that goes on keeps the count. -/
theorem step_counted (s s' : Search σ) (h : Counted system isTarget s)
    (hstep : step system isTarget limits polls s = .more s') : Counted system isTarget s' := by
  refine ⟨step_invariant s s' h.toInvariant hstep, ?_⟩
  rw [step_iterations s s' hstep, (step_more hstep).2.spent_eq h.toInvariant, h.iterations]

/-- Nothing is spent when the first iteration begins. -/
theorem start_counted {s : Search σ} (h : start system isTarget = .more s) :
    Counted system isTarget s := by
  refine ⟨start_invariant h, ?_⟩
  obtain ⟨_, next, hnext, _, rfl⟩ := start_more h
  have hdegree := TransitionSystem.degree_eq hnext
  simp [spent, hdegree]

/-- No more is spent than the states that avoid the target allow. -/
theorem Invariant.spent_le {s : Search σ} (h : Invariant system isTarget s) {states : Finset σ}
    (hstates : ∀ x, system.Avoids isTarget x → x ∈ states) :
    spent system s ≤ ∑ x ∈ states, (1 + system.degree x) := by
  classical
  have hpath :
      (s.stack.toList.map fun frame => system.degree frame.state - frame.pending.length).sum ≤
        (s.path.map fun x => 1 + system.degree x).sum := by
    rw [path, List.map_map]
    refine List.sum_le_sum fun frame _ => ?_
    dsimp only [Function.comp]
    omega
  have hsubset : s.held.toFinset ⊆ states :=
    fun x hx => hstates x (h.avoids_held x (List.mem_toFinset.mp hx))
  calc spent system s
      ≤ (s.held.map fun x => 1 + system.degree x).sum := by
        rw [held, List.map_append, List.sum_append, spent]
        omega
    -- Closed states and states of the path are counted together, none of them twice.
    _ = ∑ x ∈ s.held.toFinset, (1 + system.degree x) :=
        (List.sum_toFinset _ h.nodup_held).symm
    _ ≤ ∑ x ∈ states, (1 + system.degree x) := Finset.sum_le_sum_of_subset hsubset

/-- A search ends when finitely many states avoid the target. -/
theorem exists_endsWithin (limits : Limits) (polls : Polls) {states : Finset σ}
    (hstates : ∀ x, system.Avoids isTarget x → x ∈ states) :
    ∃ r, EndsWithin system isTarget limits polls
      (1 + ∑ x ∈ states, (1 + system.degree x)) r := by
  cases hstart : start system isTarget with
  | done r => exact ⟨r, .inl hstart⟩
  | more first =>
    have hbound : ∀ s, Counted system isTarget s →
        s.iterations ≤ ∑ x ∈ states, (1 + system.degree x) :=
      fun s hs => hs.iterations.le.trans (hs.spent_le hstates)
    have hdone : ∃ r, Loop.iterate (step system isTarget limits polls)
        (1 + ∑ x ∈ states, (1 + system.degree x)) first = .done r :=
      Loop.iterate_done_of_bounded step_counted step_iterations hbound (start_counted hstart)
    obtain ⟨r, hr⟩ := hdone
    exact ⟨r, .inr ⟨first, hstart, hr⟩⟩

/-- Without a time limit and without cancellation no poll stops the search. -/
theorem poll?_eq_none (htime : limits.timeLimit = none) (hcancel : ∀ n, polls.cancelled n = false)
    (iterations : Nat) : poll? limits polls iterations = none := by
  simp only [poll?, htime, hcancel, Bool.false_eq_true, if_false, ite_self]

/-- A search ends before its first iteration or by an iteration from a state with the
invariant. -/
theorem EndsWithin.ends {n : Nat} {r : SearchResult σ ε}
    (h : EndsWithin system isTarget limits polls n r) :
    start system isTarget = .done r ∨
      ∃ s, Invariant system isTarget s ∧ Ending system isTarget limits polls s r := by
  refine h.imp_right fun ⟨first, hstart, hdone⟩ => ?_
  obtain ⟨s, hs, hlast⟩ :=
    Loop.iterate_done_invariant step_invariant (start_invariant hstart) hdone
  exact ⟨s, hs, step_done hlast⟩

/-- A search that fails has met a state whose successors are not known. -/
theorem EndsWithin.exists_unknown {n : Nat} {r : SearchResult σ ε}
    (h : EndsWithin system isTarget limits polls n r) {e : ε} (he : r.verdict = .error e) :
    ∃ s, system.Avoids isTarget s ∧ system.successors s = .error e := by
  rcases h.ends with hstart | ⟨s, hs, hend⟩
  · rcases start_done hstart with ⟨_, rfl⟩ | ⟨ht, ⟨_, hnext, rfl⟩ | ⟨_, rfl⟩⟩
    · cases he
    · cases he
      exact ⟨_, .initial ht, hnext⟩
    · cases he
  · cases hend with
    | @failed _ _ y _ _ hstack ht _ _ _ hnext =>
      cases he
      have hmem : y ∈ s.path ++ [y] := List.mem_append_right _ (List.mem_singleton_self y)
      exact ⟨y, hs.avoids_next hstack ht y hmem, hnext⟩
    | polled | exhausted | cycle | limited | deadEnd => cases he

/-- A search does not fail where the successors of the states that avoid the target are
known. -/
theorem EndsWithin.exists_verdict {n : Nat} {r : SearchResult σ ε}
    (hknown : ∀ s, system.Avoids isTarget s → ∃ next, system.successors s = .ok next)
    (h : EndsWithin system isTarget limits polls n r) : ∃ verdict, r.verdict = .ok verdict := by
  cases hr : r.verdict with
  | ok verdict => exact ⟨verdict, rfl⟩
  | error e =>
    obtain ⟨s, hs, hunknown⟩ := h.exists_unknown hr
    obtain ⟨next, hnext⟩ := hknown s hs
    rw [hunknown] at hnext
    cases hnext

/-- A search without limits that fails nowhere and ends has a definite answer. -/
theorem EndsWithin.definite {n : Nat} {r : SearchResult σ ε}
    (hknown : ∀ s, system.Avoids isTarget s → ∃ next, system.successors s = .ok next)
    (hstates : limits.maxStates = none) (htime : limits.timeLimit = none)
    (hcancel : ∀ n, polls.cancelled n = false)
    (h : EndsWithin system isTarget limits polls n r) :
    ∃ verdict, r = ⟨.ok verdict, r.stats⟩ ∧
      (verdict = .unavoidable ∨ ∃ lasso, verdict = .counterexample lasso) := by
  obtain ⟨verdict, hverdict⟩ := h.exists_verdict hknown
  refine ⟨verdict, by rw [← hverdict], ?_⟩
  rcases h.ends with hstart | ⟨s, _, hend⟩
  · rcases start_done hstart with ⟨_, rfl⟩ | ⟨_, ⟨_, _, rfl⟩ | ⟨_, rfl⟩⟩
    · cases hverdict
      exact .inl rfl
    · cases hverdict
    · cases hverdict
      exact .inr ⟨_, rfl⟩
  · cases hend with
    | exhausted =>
      cases hverdict
      exact .inl rfl
    | cycle | deadEnd =>
      cases hverdict
      exact .inr ⟨_, rfl⟩
    | failed => cases hverdict
    | polled hp =>
      rw [poll?_eq_none htime hcancel] at hp
      cases hp
    | limited _ _ _ _ hf => simp only [Limits.forbid?, hstates, reduceCtorEq] at hf

end TapeReach.Search
