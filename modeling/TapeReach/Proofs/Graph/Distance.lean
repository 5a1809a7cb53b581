import Mathlib.Data.Nat.Find
import TapeReach.Proofs.Reachability

/-!
# Distances from the initial state

The distance of a state is the number of transitions on a shortest path to
it. The states at distance `n + 1` are the successors of the states at
distance `n` that are not at a smaller distance, and no distance up to that
of a reachable state is left out. The breadth-first order puts the states in
the order of their distances, and states at one distance in their own order.
-/

namespace TapeReach.TransitionSystem

variable {σ ε : Type} (system : TransitionSystem σ ε)

/-- The successors of a state, in order; none if they are not known. -/
def next (s : σ) : List σ :=
  match system.successors s with
  | .ok next => next
  | .error _ => []

/-- The successors of every reachable state are known. -/
def Known : Prop := ∀ s, system.Reachable s → ∃ next, system.successors s = .ok next

/-- The states at the end of a path of `n` transitions. -/
inductive ReachableIn : Nat → σ → Prop
  | initial : ReachableIn 0 system.initial
  | next {n : Nat} {s t : σ} (hs : ReachableIn n s) (hst : system.Leads s t) :
      ReachableIn (n + 1) t

/-- A shortest path to the state has `n` transitions. -/
structure Distance (s : σ) (n : Nat) : Prop where
  /-- There is a path with `n` transitions. -/
  path : system.ReachableIn n s
  /-- There is no path with fewer transitions. -/
  shortest : ∀ m, system.ReachableIn m s → n ≤ m

/-- The first state comes before the second in the breadth-first order: it is nearer to
the initial state, or equally near and smaller. -/
def Precedes [Ord σ] (s t : σ) : Prop :=
  ∃ d e, system.Distance s d ∧ system.Distance t e ∧ (d < e ∨ d = e ∧ compare s t = .lt)

variable {system} {s t : σ} {m n : Nat}

/-- The successors that are known. -/
theorem successors_eq_next (hknown : system.Known) (hs : system.Reachable s) :
    system.successors s = .ok (system.next s) := by
  obtain ⟨next, hnext⟩ := hknown s hs
  simp only [TransitionSystem.next, hnext]

/-- A state leads to its successors. -/
theorem leads_iff_mem_next (hknown : system.Known) (hs : system.Reachable s) :
    system.Leads s t ↔ t ∈ system.next s := by
  have hnext := successors_eq_next hknown hs
  constructor
  · rintro ⟨next, h, hmem⟩
    rw [hnext] at h
    cases h
    exact hmem
  · intro hmem
    exact ⟨_, hnext, hmem⟩

/-- States at the end of a path are reachable. -/
theorem ReachableIn.reachable (h : system.ReachableIn n s) : system.Reachable s := by
  induction h with
  | initial => exact .initial
  | next _ hst ih => exact .next ih hst

/-- Every reachable state has a distance. -/
theorem Reachable.exists_distance (h : system.Reachable s) : ∃ n, system.Distance s n := by
  classical
  have hpath : ∃ n, system.ReachableIn n s := by
    induction h with
    | initial => exact ⟨0, .initial⟩
    | next _ hst ih =>
      obtain ⟨n, hn⟩ := ih
      exact ⟨n + 1, .next hn hst⟩
  exact ⟨Nat.find hpath, Nat.find_spec hpath, fun m hm => Nat.find_min' hpath hm⟩

/-- States with a distance are reachable. -/
theorem Distance.reachable (h : system.Distance s n) : system.Reachable s := h.path.reachable

/-- A state has one distance. -/
theorem Distance.unique (hm : system.Distance s m) (hn : system.Distance s n) : m = n :=
  Nat.le_antisymm (hm.shortest n hn.path) (hn.shortest m hm.path)

/-- The initial state is at distance zero. -/
theorem distance_initial : system.Distance system.initial 0 := ⟨.initial, fun m _ => Nat.zero_le m⟩

/-- Only the initial state is at distance zero. -/
theorem Distance.eq_initial (h : system.Distance s 0) : s = system.initial := by
  cases h.path
  rfl

/-- A state at a positive distance follows one that is nearer by one. -/
theorem Distance.exists_previous (h : system.Distance t (n + 1)) :
    ∃ s, system.Distance s n ∧ system.Leads s t := by
  obtain _ | ⟨hs, hst⟩ := h.path
  refine ⟨_, ⟨hs, fun m hm => ?_⟩, hst⟩
  have hle := h.shortest (m + 1) (.next hm hst)
  omega

/-- The successors of a state are farther by one at most. -/
theorem Distance.exists_next (h : system.Distance s n) (hst : system.Leads s t) :
    ∃ m ≤ n + 1, system.Distance t m := by
  have hpath : system.ReachableIn (n + 1) t := .next h.path hst
  obtain ⟨m, hm⟩ := hpath.reachable.exists_distance
  exact ⟨m, hm.shortest _ hpath, hm⟩

/-- The states at the next distance are the successors that are not nearer. -/
theorem distance_succ_iff :
    system.Distance t (n + 1) ↔
      (∃ s, system.Distance s n ∧ system.Leads s t) ∧ ∀ m ≤ n, ¬ system.Distance t m := by
  constructor
  · intro h
    refine ⟨h.exists_previous, fun m hle hm => ?_⟩
    have heq := hm.unique h
    omega
  · rintro ⟨⟨s, hs, hst⟩, hfar⟩
    obtain ⟨m, hle, hm⟩ := hs.exists_next hst
    have hlt : ¬ m ≤ n := fun hmn => hfar m hmn hm
    have heq : m = n + 1 := by omega
    exact heq ▸ hm

/-- Every distance up to that of a state occurs. -/
theorem Distance.exists_at (h : system.Distance s n) (hle : m ≤ n) :
    ∃ t, system.Distance t m := by
  induction n generalizing s with
  | zero => exact ⟨s, Nat.le_zero.mp hle ▸ h⟩
  | succ n ih =>
    by_cases hm : m = n + 1
    · exact ⟨s, hm ▸ h⟩
    · obtain ⟨t, ht, _⟩ := h.exists_previous
      exact ih ht (by omega)

section Order

variable [Ord σ]

/-- Nearer states come first. -/
theorem Distance.precedes_of_lt (hs : system.Distance s m) (ht : system.Distance t n)
    (h : m < n) : system.Precedes s t :=
  ⟨m, n, hs, ht, .inl h⟩

/-- Of two states at one distance the smaller comes first. -/
theorem Distance.precedes_of_compare (hs : system.Distance s n) (ht : system.Distance t n)
    (h : compare s t = .lt) : system.Precedes s t :=
  ⟨n, n, hs, ht, .inr ⟨rfl, h⟩⟩

/-- Only reachable states come before others. -/
theorem Precedes.reachable (h : system.Precedes s t) : system.Reachable s := by
  obtain ⟨_, _, hs, _⟩ := h
  exact hs.reachable

/-- Of two states only one comes before the other. -/
theorem Precedes.asymm [Std.OrientedOrd σ] (h : system.Precedes s t) : ¬ system.Precedes t s := by
  obtain ⟨d, e, hs, ht, hlt⟩ := h
  rintro ⟨e', d', ht', hs', hgt⟩
  have hd := hs.unique hs'
  have he := ht.unique ht'
  rcases hlt with hlt | ⟨heq, hlt⟩
  · rcases hgt with hgt | ⟨heq, _⟩ <;> omega
  · rcases hgt with hgt | ⟨_, hgt⟩
    · omega
    · rw [Std.OrientedOrd.eq_swap, hlt] at hgt
      cases hgt

/-- The breadth-first order is transitive. -/
theorem Precedes.trans [Std.TransOrd σ] {u : σ} (h : system.Precedes s t)
    (h' : system.Precedes t u) : system.Precedes s u := by
  obtain ⟨d, e, hs, ht, hlt⟩ := h
  obtain ⟨e', f, ht', hu, hlt'⟩ := h'
  have he := ht.unique ht'
  rcases hlt with hlt | ⟨hd, hlt⟩
  · exact hs.precedes_of_lt hu (by omega)
  · rcases hlt' with hlt' | ⟨hf, hlt'⟩
    · exact hs.precedes_of_lt hu (by omega)
    · have hdf : d = f := by omega
      exact hs.precedes_of_compare (hdf ▸ hu) (Std.TransCmp.lt_trans hlt hlt')

/-- No state comes before itself. -/
theorem Precedes.irrefl [Std.OrientedOrd σ] : ¬ system.Precedes s s := fun h => h.asymm h

end Order

end TapeReach.TransitionSystem
