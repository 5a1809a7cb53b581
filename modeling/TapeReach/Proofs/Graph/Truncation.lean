import TapeReach.Proofs.Graph.Exactness

/-!
# Exactness of the cut

A limit cuts a graph exactly when there are more reachable states than nodes
may be in it, and then the nodes are the first states in the breadth-first
order. Nodes nearer than the first state dropped have their transitions to
the states that were kept. A limit that is not reached makes no difference.
-/

namespace TapeReach

namespace StateGraph

variable {σ ε : Type} [BEq σ] [Hashable σ] [Ord σ]

/-- The graph holds the first `size` of the reachable states, and there are more. -/
structure IsCut (graph : StateGraph σ) (system : TransitionSystem σ ε) (size : Nat) : Prop
    extends graph.Enumerates system where
  /-- The graph is full. -/
  full : graph.size = size
  /-- The states dropped have a first one, and the nodes that are nearer have transitions. -/
  dropped : ∃ x d, system.Distance x d ∧ x ∉ graph.states ∧
    (∀ y, system.Reachable y → y ∉ graph.states → y = x ∨ system.Precedes x y) ∧
    ∀ node ∈ graph.nodes, (node.expanded = true ↔ node.depth < d)
  /-- The transitions are those to states that were kept, in order. -/
  successors : ∀ node ∈ graph.nodes, ∃ next, system.successors node.state = .ok next ∧
    node.successors = if node.expanded then next.filterMap graph.find? else []

/-- The graph is cut exactly if more than `max m 1` states are reachable. -/
structure IsLimited (graph : StateGraph σ) (system : TransitionSystem σ ε) (m : Nat) : Prop where
  /-- States are dropped only if there are too many. -/
  truncated : graph.truncated = true ↔ ((max m 1 : Nat) : ℕ∞) < {s | system.Reachable s}.encard
  /-- If states are dropped, then the first ones are kept. -/
  cut : graph.truncated = true → graph.IsCut system (max m 1)

end StateGraph

namespace Explorer

variable {σ ε : Type} [BEq σ] [Hashable σ] [Ord σ] {system : TransitionSystem σ ε} {m : Nat}
  {s : Explorer σ}

namespace Invariant

/-- A graph that states were dropped from is full. -/
theorem size_eq (h : Invariant system (some m) s) (htruncated : s.graph.truncated = true) :
    s.graph.size = max m 1 := by
  obtain ⟨limit, hlimit, hsize⟩ := h.full htruncated
  cases hlimit
  exact hsize

/-- There are more reachable states than fit when one is dropped. -/
theorem lt_encard (h : Invariant system (some m) s) (htruncated : s.graph.truncated = true) :
    ((max m 1 : Nat) : ℕ∞) < {x | system.Reachable x}.encard := by
  obtain ⟨x, hx, hnot, _⟩ := h.cut htruncated
  have hnodup : (x :: s.graph.states).Nodup := List.nodup_cons.mpr ⟨hnot, h.indexed.nodup⟩
  have hsubset : {y | y ∈ x :: s.graph.states} ⊆ {y | system.Reachable y} := by
    intro y hy
    rcases List.mem_cons.mp hy with rfl | hy
    · exact hx.reachable
    · exact h.reachable_of_mem hy
  have hle := Set.encard_le_encard hsubset
  rw [encard_setOf_mem hnodup, List.length_cons, StateGraph.length_states,
    h.size_eq htruncated] at hle
  exact lt_of_lt_of_le (Nat.cast_lt.mpr (Nat.lt_succ_self _)) hle

/-- All reachable states fit when none is dropped. -/
theorem encard_le (h : Invariant system (some m) s) (hfrontier : s.frontier = [])
    (hcomplete : s.graph.truncated = false) :
    {x | system.Reachable x}.encard ≤ (max m 1 : Nat) := by
  have hsubset : {x | system.Reachable x} ⊆ {x | x ∈ s.graph.states} :=
    fun _ hx => h.mem_of_reachable hfrontier hcomplete hx
  have hle := Set.encard_le_encard hsubset
  rw [encard_setOf_mem h.indexed.nodup, StateGraph.length_states] at hle
  exact hle.trans (Nat.cast_le.mpr (h.size_le m rfl))

/-- The end of an exploration that dropped states is a cut. -/
theorem isCut [Std.TransOrd σ] (h : Invariant system (some m) s) (hknown : system.Known)
    (htruncated : s.graph.truncated = true) : s.graph.IsCut system (max m 1) where
  toEnumerates := h.enumerates (.inr htruncated)
  full := h.size_eq htruncated
  dropped := by
    obtain ⟨x, hx, hnot, _, hleast⟩ := h.exists_first_dropped htruncated
    exact ⟨x, s.depth, hx, hnot, hleast, h.expanded⟩
  successors node hnode :=
    ⟨_, TransitionSystem.successors_eq_next hknown (h.distance node hnode).reachable,
      h.successors node hnode⟩

/-- The end of an exploration with a limit is cut exactly if it has to be. -/
theorem isLimited [Std.TransOrd σ] (h : Invariant system (some m) s) (hknown : system.Known)
    (hend : s.frontier = [] ∨ s.graph.truncated = true) : s.graph.IsLimited system m where
  truncated := by
    refine ⟨h.lt_encard, fun hlt => ?_⟩
    by_contra htruncated
    have hcomplete := Bool.eq_false_iff.mpr htruncated
    exact absurd hlt (not_lt.mpr (h.encard_le (hend.resolve_right htruncated) hcomplete))
  cut := h.isCut hknown

end Invariant

/-- An exploration that has dropped states goes no further. -/
theorem eq_of_iterate_truncated {maxStates : Option Nat} {graph : StateGraph σ} {n : Nat}
    (htruncated : s.graph.truncated = true)
    (h : Loop.iterate (step system maxStates) n s = .done (.ok graph)) : graph = s.graph := by
  cases n with
  | zero => cases h
  | succ n =>
    simp only [Loop.iterate, step, htruncated, Bool.or_true, if_true, Loop.Step.done.injEq,
      Except.ok.injEq] at h
    exact h.symm

/-- An exploration that ends without states dropped takes the same levels without the
limit. -/
theorem iterate_none_of_complete [LawfulBEq σ] [Std.TransOrd σ] (hsystem : system.Explorable)
    (h : Invariant system (some m) s) {graph : StateGraph σ} (hcomplete : graph.truncated = false)
    {n : Nat} (hdone : Loop.iterate (step system (some m)) n s = .done (.ok graph)) :
    Loop.iterate (step system none) n s = .done (.ok graph) := by
  induction n generalizing s with
  | zero => cases hdone
  | succ n ih =>
    have hlimited := h.step_eq hsystem.known (some m)
    have hunlimited := h.step_eq hsystem.known none
    simp only [Loop.iterate] at hdone ⊢
    by_cases hend : s.frontier = [] ∨ s.graph.truncated = true
    · rw [if_pos hend] at hlimited hunlimited
      rw [hlimited] at hdone
      rw [hunlimited]
      exact hdone
    · rw [if_neg hend] at hlimited hunlimited
      rw [hlimited] at hdone
      have hnext := h.step_more hsystem hlimited
      -- A level that was cut short would be the last one, and the result truncated.
      have hkept : (s.extend (some m) (s.frontier.map fun entry =>
          system.next entry.2)).graph.truncated = false := by
        by_contra htruncated
        have heq := eq_of_iterate_truncated (Bool.not_eq_false _ ▸ htruncated) hdone
        exact htruncated (heq ▸ hcomplete)
      rw [hunlimited, ← extend_eq_of_complete hkept]
      exact ih hnext hdone

end Explorer

/-- With a limit the exploration ends with a graph that is cut exactly if it has to be, and
that is the graph without the limit if it is not. -/
theorem exists_limited_end {σ ε : Type} [BEq σ] [Hashable σ] [LawfulBEq σ] [Ord σ]
    [Std.TransOrd σ] {system : TransitionSystem σ ε} (hsystem : system.Explorable) {m bound : Nat}
    (hbound : {s | system.Reachable s}.encard ≤ bound ∨ max m 1 ≤ bound) :
    ∃ graph, graph.IsLimited system m ∧
      Loop.iterate (Explorer.step system (some m)) (1 + bound) (.start system.initial) =
        .done (.ok graph) ∧
      (graph.truncated = false →
        Loop.iterate (Explorer.step system none) (1 + bound) (.start system.initial) =
          .done (.ok graph)) := by
  obtain ⟨s, h, hend, hdone⟩ := exists_end_of_bound hsystem (some m)
    (hbound.imp_right fun hle => ⟨m, rfl, hle⟩)
  exact ⟨s.graph, h.isLimited hsystem.known hend, hdone, fun hcomplete =>
    Explorer.iterate_none_of_complete hsystem (Explorer.invariant_start _ _) hcomplete hdone⟩

/-- With a limit of `m` states the exploration drops states exactly if more than `max m 1`
are reachable, and keeps the first of them. If it drops none, then the graph is the one
without a limit. This holds of every system, once there are rounds for one level more than
nodes, and of every program that has been parsed. -/
theorem explore_limited :
    (∀ {σ ε : Type} [BEq σ] [Hashable σ] [LawfulBEq σ] [Ord σ] [Std.TransOrd σ]
      (system : TransitionSystem σ ε) (m : Nat), system.Explorable →
      ∃ graph, graph.IsLimited system m ∧
        (∀ rounds, max m 1 + 1 ≤ 2 ^ rounds - 1 → system.explore (some m) rounds = .ok graph) ∧
        (graph.truncated = false → ∀ rounds,
          {s | system.Reachable s}.ncard + 1 ≤ 2 ^ rounds - 1 →
            system.explore none rounds = .ok graph)) ∧
    ∀ source program io m, Program.parse source = .ok program →
      ∃ graph, graph.IsLimited (program.stateSpace io) m ∧
        program.explore io (some m) = .ok graph ∧
        (graph.truncated = false → program.explore io none = .ok graph) := by
  constructor
  · intro σ ε _ _ _ _ _ system m hsystem
    obtain ⟨graph, hlimited, hdone, hsame⟩ := exists_limited_end hsystem (.inr (Nat.le_refl _))
    refine ⟨graph, hlimited, fun rounds hrounds => ?_, fun hcomplete rounds hrounds => ?_⟩
    · exact TransitionSystem.explore_eq hdone (Nat.add_comm _ _ ▸ hrounds)
    · -- The states may be far fewer than the limit, so the loop is counted by them here.
      have hfew : {s | system.Reachable s}.encard ≤ (max m 1 : Nat) := by
        rw [← not_lt, ← hlimited.truncated, hcomplete]
        exact Bool.false_ne_true
      have hfinite : {s | system.Reachable s}.Finite := Set.finite_of_encard_le_coe hfew
      obtain ⟨whole, _, hend⟩ := exists_exact_end hsystem hfinite.cast_ncard_eq.ge
      rw [Loop.iterate_done_unique (hsame hcomplete) hend]
      exact TransitionSystem.explore_eq hend (Nat.add_comm _ _ ▸ hrounds)
  · intro source program io m hparse
    have hsystem := Program.explorable hparse io
    obtain ⟨graph, hlimited, hdone, hsame⟩ :=
      exists_limited_end hsystem (.inl (program.encard_reachable_le io))
    have hrounds := program.succ_le_rounds io
    exact ⟨graph, hlimited, TransitionSystem.explore_eq hdone hrounds, fun hcomplete =>
      TransitionSystem.explore_eq (hsame hcomplete) hrounds⟩

/-- All four states of the crossing are reachable. -/
theorem crossing_reachable : ∀ s, crossing.Reachable s
  | 0 => .initial
  | 1 => .next .initial ⟨[2, 1, 2], rfl, by decide⟩
  | 2 => .next .initial ⟨[2, 1, 2], rfl, by decide⟩
  | 3 => .next (.next .initial ⟨[2, 1, 2], rfl, List.mem_cons_self⟩) ⟨[3], rfl, by decide⟩

/-- The crossing is cut to two states, but not to four. -/
theorem explore_crossing_limited :
    (∃ graph, graph.IsCut crossing 2 ∧ crossing.explore (some 2) 2 = .ok graph) ∧
      (∃ graph, crossing.explore (some 4) 3 = .ok graph ∧ crossing.explore none 3 = .ok graph) ∧
      Program.parse "+[>+]_end_" = .ok filling ∧
      ∃ graph, graph.IsLimited (filling.stateSpace {}) 100 ∧
        filling.explore {} (some 100) = .ok graph := by
  have hparse : Program.parse "+[>+]_end_" = .ok filling := by rfl
  have hall : {s | crossing.Reachable s} = Set.univ := Set.eq_univ_of_forall crossing_reachable
  have hncard : {s | crossing.Reachable s}.ncard = 4 := by
    rw [hall, Set.ncard_univ, Nat.card_fin]
  have hencard : {s | crossing.Reachable s}.encard = (4 : Nat) :=
    (Set.toFinite _).cast_ncard_eq.symm.trans (congrArg Nat.cast hncard)
  obtain ⟨hsystems, hprograms⟩ := explore_limited
  obtain ⟨small, hsmall, hexplore, _⟩ := hsystems crossing 2 crossing_explorable
  obtain ⟨large, hlarge, hlimited, hsame⟩ := hsystems crossing 4 crossing_explorable
  have hcut : small.truncated = true := by
    rw [hsmall.truncated, hencard, Nat.cast_lt]
    decide
  have hcomplete : large.truncated = false := by
    rw [Bool.eq_false_iff, ne_eq, hlarge.truncated, hencard, Nat.cast_lt]
    decide
  obtain ⟨graph, hgraph, hprogram, _⟩ := hprograms _ _ {} 100 hparse
  exact ⟨⟨small, hsmall.cut hcut, hexplore 2 (by decide)⟩,
    ⟨large, hlimited 3 (by decide), hsame hcomplete 3 (by rw [hncard]; decide)⟩, hparse,
    ⟨graph, hgraph, hprogram⟩⟩

end TapeReach
