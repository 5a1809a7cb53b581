import Mathlib.Data.List.Chain
import Mathlib.Data.Set.Card
import TapeReach.TransitionSystem

/-!
# Runs and reachability

A run of a transition system follows its successors from the initial state,
either for ever or to a state that has none. A target is inevitable from a
state when no run from there can miss it; this is said by induction, without
runs, and the theorems here carry it over to runs of both kinds. The states
that avoid the target are those reached through states that do not satisfy it.
-/

namespace TapeReach

/-- A list without repeats has as many members as its length. -/
theorem encard_setOf_mem {α : Type} {xs : List α} (h : xs.Nodup) :
    {x | x ∈ xs}.encard = xs.length := by
  classical
  have hcoe : {x | x ∈ xs} = (xs.toFinset : Set α) := (List.coe_toFinset xs).symm
  rw [hcoe, Set.encard_coe_eq_coe_finsetCard, List.toFinset_card_of_nodup h]

namespace TransitionSystem

variable {σ ε : Type} (system : TransitionSystem σ ε) (isTarget : σ → Bool)

/-- The second state is among the successors of the first. -/
def Leads (s t : σ) : Prop := ∃ next, system.successors s = .ok next ∧ t ∈ next

/-- Number of successors, repeats counted; zero if they are not known. -/
def degree (s : σ) : Nat :=
  match system.successors s with
  | .ok next => next.length
  | .error _ => 0

/-- The successors of every state are known. -/
def Total : Prop := ∀ s, ∃ next, system.successors s = .ok next

/-- A run that goes on for ever. -/
structure IsInfiniteRun (run : Nat → σ) : Prop where
  /-- It starts in the initial state. -/
  first : run 0 = system.initial
  /-- Each state is among the successors of the one before it. -/
  linked : ∀ n, system.Leads (run n) (run (n + 1))

/-- A run that stops because its last state has no successor. -/
structure IsFiniteRun (run : List σ) : Prop where
  /-- It starts in the initial state. -/
  first : run.head? = some system.initial
  /-- Each state is among the successors of the one before it. -/
  linked : run.IsChain system.Leads
  /-- Its last state has no successor. -/
  last : ∃ s, run.getLast? = some s ∧ system.successors s = .ok []

/-- The states on some run. -/
inductive Reachable : σ → Prop
  | initial : Reachable system.initial
  | next {s t : σ} (hs : Reachable s) (hst : system.Leads s t) : Reachable t

/-- The states other than target states that are reached through such states only. -/
inductive Avoids : σ → Prop
  | initial (h : isTarget system.initial = false) : Avoids system.initial
  | next {s t : σ} (hs : Avoids s) (hst : system.Leads s t) (ht : isTarget t = false) : Avoids t

/-- No run from the state misses the target: the state satisfies it, or it has
successors and the target is inevitable from each of them. -/
inductive Inevitable : σ → Prop
  | here {s : σ} (h : isTarget s = true) : Inevitable s
  | next {s : σ} {next : List σ} (hs : system.successors s = .ok next) (hne : next ≠ [])
      (hnext : ∀ t ∈ next, Inevitable t) : Inevitable s

variable {system isTarget}

/-- States that avoid the target do not satisfy it. -/
theorem Avoids.not_target {s : σ} (h : system.Avoids isTarget s) : isTarget s = false := by
  cases h with
  | initial h => exact h
  | next _ _ h => exact h

/-- States that avoid the target are reachable. -/
theorem Avoids.reachable {s : σ} (h : system.Avoids isTarget s) : system.Reachable s := by
  induction h with
  | initial _ => exact .initial
  | next _ hst _ ih => exact .next ih hst

/-- What holds initially and is kept by every transition holds of every reachable state. -/
theorem Reachable.invariant {Inv : σ → Prop} (hinitial : Inv system.initial)
    (hnext : ∀ s t, Inv s → system.Leads s t → Inv t) {s : σ} (h : system.Reachable s) : Inv s := by
  induction h with
  | initial => exact hinitial
  | next _ hst ih => exact hnext _ _ ih hst

/-- The number of successors that a state is known to have. -/
theorem degree_eq {s : σ} {next : List σ} (h : system.successors s = .ok next) :
    system.degree s = next.length := by
  simp only [degree, h]

/-- A path for ever from an inevitable state meets the target. -/
theorem Inevitable.meets_infinite {run : Nat → σ}
    (hrun : ∀ n, system.Leads (run n) (run (n + 1))) {s : σ}
    (h : system.Inevitable isTarget s) (n : Nat) (hn : run n = s) :
    ∃ m, isTarget (run m) = true := by
  induction h generalizing n with
  | here ht => exact ⟨n, hn ▸ ht⟩
  | next hs _ _ ih =>
    obtain ⟨next, hnext, hmem⟩ := hrun n
    rw [hn, hs] at hnext
    cases hnext
    exact ih _ hmem (n + 1) rfl

/-- A path from an inevitable state to a state without successors meets the target. -/
theorem Inevitable.meets_finite {s : σ} (h : system.Inevitable isTarget s) {rest : List σ}
    (hlinked : (s :: rest).IsChain system.Leads)
    (hlast : ∃ t, (s :: rest).getLast? = some t ∧ system.successors t = .ok []) :
    ∃ t ∈ s :: rest, isTarget t = true := by
  induction h generalizing rest with
  | here ht => exact ⟨_, List.mem_cons_self, ht⟩
  | @next s next hs hne _ ih =>
    cases rest with
    | nil =>
      obtain ⟨t, ht, hstuck⟩ := hlast
      simp only [List.getLast?_singleton, Option.some.injEq] at ht
      rw [← ht, hs] at hstuck
      cases hstuck
      contradiction
    | cons t rest =>
      obtain ⟨⟨next', hnext, hmem⟩, hrest⟩ := List.isChain_cons_cons.mp hlinked
      rw [hs] at hnext
      cases hnext
      rw [List.getLast?_cons_cons] at hlast
      obtain ⟨u, hu, htarget⟩ := ih t hmem hrest hlast
      exact ⟨u, List.mem_cons_of_mem _ hu, htarget⟩

/-- Every run for ever meets a target that is inevitable from the initial state. -/
theorem IsInfiniteRun.meets {run : Nat → σ} (hrun : system.IsInfiniteRun run)
    (h : system.Inevitable isTarget system.initial) : ∃ n, isTarget (run n) = true :=
  h.meets_infinite hrun.linked 0 hrun.first

/-- Every run that stops meets a target that is inevitable from the initial state. -/
theorem IsFiniteRun.meets {run : List σ} (hrun : system.IsFiniteRun run)
    (h : system.Inevitable isTarget system.initial) : ∃ s ∈ run, isTarget s = true := by
  cases run with
  | nil =>
    have hfirst := hrun.first
    simp only [List.head?_nil, reduceCtorEq] at hfirst
  | cons s rest =>
    have hs : s = system.initial := by
      simpa only [List.head?_cons, Option.some.injEq] using hrun.first
    rw [← hs] at h
    exact h.meets_finite hrun.linked hrun.last

/-- An inevitable target that is not there yet is inevitable from the successors, and there
are some. -/
theorem Inevitable.exists_next {s : σ} (h : system.Inevitable isTarget s)
    (hs : isTarget s = false) :
    ∃ next, system.successors s = .ok next ∧ next ≠ [] ∧
      ∀ t ∈ next, system.Inevitable isTarget t := by
  cases h with
  | here ht =>
    rw [hs] at ht
    cases ht
  | next hnext hne hall => exact ⟨_, hnext, hne, hall⟩

/-- A target that is inevitable from the initial state is inevitable wherever it has been
avoided so far. -/
theorem Avoids.inevitable {s : σ} (hs : system.Avoids isTarget s)
    (h : system.Inevitable isTarget system.initial) : system.Inevitable isTarget s := by
  induction hs with
  | initial _ => exact h
  | next hs hst _ ih =>
    obtain ⟨next, hnext, _, hall⟩ := ih.exists_next hs.not_target
    obtain ⟨next', hnext', hmem⟩ := hst
    rw [hnext] at hnext'
    cases hnext'
    exact hall _ hmem

/-- Inevitability carries over along a relation between the states of two systems, if every
state with successors is related to states with successors only, each of which is related to
one of its own. -/
theorem Inevitable.of_related {τ ε' : Type} {other : TransitionSystem τ ε'} {isTarget' : τ → Bool}
    {R : σ → τ → Prop} (htarget : ∀ s t, R s t → isTarget s = true → isTarget' t = true)
    (hnext : ∀ s t next, R s t → system.successors s = .ok next → next ≠ [] →
      ∃ next', other.successors t = .ok next' ∧ next' ≠ [] ∧ ∀ t' ∈ next', ∃ s' ∈ next, R s' t')
    {s : σ} (h : system.Inevitable isTarget s) {t : τ} (hst : R s t) :
    other.Inevitable isTarget' t := by
  induction h generalizing t with
  | here hs => exact .here (htarget _ _ hst hs)
  | next hs hne _ ih =>
    obtain ⟨next', ht, hne', hrelated⟩ := hnext _ _ _ hst hs hne
    refine .next ht hne' fun t' ht' => ?_
    obtain ⟨s', hs', hR⟩ := hrelated t' ht'
    exact ih s' hs' hR

end TransitionSystem

end TapeReach
