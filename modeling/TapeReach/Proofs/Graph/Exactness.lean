import TapeReach.Check
import TapeReach.Proofs.Check
import TapeReach.Proofs.Graph.Invariant
import TapeReach.Proofs.Program.Parsed
import TapeReach.Proofs.State.Order

/-!
# Exactness of the state graph

The nodes of a graph are the first reachable states in the breadth-first
order, numbered in that order. Without a limit they are all of them, if there
are finitely many, and every node has all of its transitions. The state space
of a program that has been parsed is finite, so its graph is always complete.
-/

namespace TapeReach

namespace StateGraph

variable {σ ε : Type} [BEq σ] [Hashable σ] [Ord σ]

/-- The nodes are the first reachable states in the breadth-first order. -/
structure Enumerates (graph : StateGraph σ) (system : TransitionSystem σ ε) : Prop where
  /-- The initial state comes first. -/
  first : graph.states[0]? = some system.initial
  /-- No state occurs twice. -/
  distinct : graph.states.Nodup
  /-- A state is found at its number. -/
  find : ∀ (x : σ) (i : Nat), graph.find? x = some i ↔ graph.states[i]? = some x
  /-- Nodes hold the distances of their states. -/
  distance : ∀ node ∈ graph.nodes, system.Distance node.state node.depth
  /-- The numbers follow the order. -/
  ordered : ∀ (i j : Nat) (x y : σ), graph.states[i]? = some x → graph.states[j]? = some y →
    (i < j ↔ system.Precedes x y)
  /-- The number of a state counts the states that come before it. -/
  numbered : ∀ (i : Nat) (x : σ), graph.states[i]? = some x → {y | system.Precedes y x}.encard = i
  /-- States that are not in the graph come behind those that are. -/
  remaining : ∀ x ∈ graph.states, ∀ y, system.Reachable y → y ∉ graph.states →
    system.Precedes x y

/-- The graph holds all reachable states and their transitions. -/
structure IsExact (graph : StateGraph σ) (system : TransitionSystem σ ε) : Prop
    extends graph.Enumerates system where
  /-- No states were dropped. -/
  complete : graph.truncated = false
  /-- The states are the reachable ones. -/
  reachable : ∀ x, x ∈ graph.states ↔ system.Reachable x
  /-- Every node has transitions. -/
  expanded : ∀ node ∈ graph.nodes, node.expanded = true
  /-- The transitions lead to the numbers of the successors, in order and as often. -/
  successors : ∀ node ∈ graph.nodes, ∃ next, system.successors node.state = .ok next ∧
    node.successors.map some = next.map graph.find?

end StateGraph

namespace Explorer.Invariant

variable {σ ε : Type} [BEq σ] [Hashable σ] [Ord σ] {system : TransitionSystem σ ε}
  {maxStates : Option Nat} {s : Explorer σ}

/-- The states in the graph are reachable. -/
theorem reachable_of_mem (h : Invariant system maxStates s) {x : σ} (hx : x ∈ s.graph.states) :
    system.Reachable x := by
  obtain ⟨node, hnode, rfl⟩ := List.mem_map.mp hx
  exact (h.distance node (Array.mem_toList_iff.mp hnode)).reachable

/-- The graph has at most as many nodes as there are reachable states. -/
theorem size_le_encard (h : Invariant system maxStates s) :
    (s.graph.size : ℕ∞) ≤ {x | system.Reachable x}.encard := by
  rw [← StateGraph.length_states, ← encard_setOf_mem h.indexed.nodup]
  exact Set.encard_le_encard fun _ hx => h.reachable_of_mem hx

/-- When a level is empty no reachable state is missing. -/
theorem mem_of_reachable (h : Invariant system maxStates s) (hfrontier : s.frontier = [])
    (hcomplete : s.graph.truncated = false) {x : σ} (hx : system.Reachable x) :
    x ∈ s.graph.states := by
  obtain ⟨d, hd⟩ := hx.exists_distance
  by_cases hlt : d < s.depth
  · exact h.below x d hd hlt
  · obtain ⟨y, hy⟩ := hd.exists_at (Nat.le_of_not_lt hlt)
    obtain ⟨i, hi⟩ := (h.mem_frontier hcomplete y).mpr hy
    rw [hfrontier] at hi
    exact (List.not_mem_nil hi).elim

/-- When a level is empty every node has transitions. -/
theorem expanded_of_frontier (h : Invariant system maxStates s) (hfrontier : s.frontier = [])
    (node : GraphNode σ) (hnode : node ∈ s.graph.nodes) : node.expanded = true := by
  refine (h.expanded node hnode).mpr (Nat.lt_of_le_of_ne (h.depth_le node hnode) fun hdepth => ?_)
  obtain ⟨i, hi⟩ := Array.mem_iff_getElem?.mp hnode
  have hmem := (h.frontier i _).mpr ⟨node, hi, rfl, hdepth⟩
  rw [hfrontier] at hmem
  exact List.not_mem_nil hmem

/-- When states were dropped, one of them comes before all the others. -/
theorem exists_first_dropped (h : Invariant system maxStates s)
    (htruncated : s.graph.truncated = true) :
    ∃ x, system.Distance x s.depth ∧ x ∉ s.graph.states ∧
      (∀ y ∈ s.graph.states, system.Precedes y x) ∧
      ∀ y, system.Reachable y → y ∉ s.graph.states → y = x ∨ system.Precedes x y := by
  obtain ⟨x, hx, hnot, hbefore, hleast⟩ := h.cut htruncated
  refine ⟨x, hx, hnot, hbefore, fun y hy hnot => ?_⟩
  obtain ⟨d, hd⟩ := hy.exists_distance
  have hle : s.depth ≤ d := Nat.le_of_not_lt fun hlt => hnot (h.below y d hd hlt)
  rcases Nat.lt_or_eq_of_le hle with hlt | rfl
  · exact .inr (hx.precedes_of_lt hd hlt)
  · exact (hleast y hd hnot).imp_right (hx.precedes_of_compare hd)

section Order

variable [Std.TransOrd σ]

/-- States that are missing at the end come behind those in the graph. -/
theorem precedes_of_not_mem (h : Invariant system maxStates s)
    (hend : s.frontier = [] ∨ s.graph.truncated = true) {x y : σ} (hx : x ∈ s.graph.states)
    (hy : system.Reachable y) (hnot : y ∉ s.graph.states) : system.Precedes x y := by
  cases htruncated : s.graph.truncated with
  | false =>
    have hfrontier := hend.resolve_right (Bool.eq_false_iff.mp htruncated)
    exact absurd (h.mem_of_reachable hfrontier htruncated hy) hnot
  | true =>
    obtain ⟨first, _, _, hbefore, hleast⟩ := h.exists_first_dropped htruncated
    rcases hleast y hy hnot with rfl | hprecedes
    · exact hbefore x hx
    · exact (hbefore x hx).trans hprecedes

/-- The numbers follow the breadth-first order. -/
theorem lt_iff_precedes (h : Invariant system maxStates s) {i j : Nat} {x y : σ}
    (hi : s.graph.states[i]? = some x) (hj : s.graph.states[j]? = some y) :
    i < j ↔ system.Precedes x y := by
  have hforward : ∀ {i j : Nat} {x y : σ}, s.graph.states[i]? = some x →
      s.graph.states[j]? = some y → i < j → system.Precedes x y := by
    intro i j x y hi hj hij
    obtain ⟨hlti, rfl⟩ := List.getElem?_eq_some_iff.mp hi
    obtain ⟨hltj, rfl⟩ := List.getElem?_eq_some_iff.mp hj
    exact List.pairwise_iff_getElem.mp h.ordered i j hlti hltj hij
  refine ⟨hforward hi hj, fun hxy => ?_⟩
  rcases Nat.lt_trichotomy i j with hlt | rfl | hgt
  · exact hlt
  · rw [hi, Option.some.injEq] at hj
    exact (hj ▸ hxy).irrefl.elim
  · exact absurd hxy (hforward hj hi hgt).asymm

/-- At the end the number of a state counts the states that come before it. -/
theorem encard_precedes (h : Invariant system maxStates s)
    (hend : s.frontier = [] ∨ s.graph.truncated = true) {i : Nat} {x : σ}
    (hi : s.graph.states[i]? = some x) : {y | system.Precedes y x}.encard = i := by
  have hlt := (List.getElem?_eq_some_iff.mp hi).1
  have hset : {y | system.Precedes y x} = {y | y ∈ s.graph.states.take i} := by
    ext y
    rw [Set.mem_ofPred_eq, Set.mem_ofPred_eq, List.mem_iff_getElem?]
    simp only [List.getElem?_take]
    constructor
    · intro hyx
      -- A state before `x` cannot be missing, because the missing ones come behind.
      have hy : y ∈ s.graph.states := by
        by_contra hnot
        have hxy := h.precedes_of_not_mem hend (List.mem_of_getElem? hi) hyx.reachable hnot
        exact hyx.asymm hxy
      obtain ⟨j, hj⟩ := List.mem_iff_getElem?.mp hy
      exact ⟨j, by rw [if_pos ((h.lt_iff_precedes hj hi).mpr hyx), hj]⟩
    · rintro ⟨j, hj⟩
      split at hj
      · rename_i hji
        exact (h.lt_iff_precedes hj hi).mp hji
      · cases hj
  rw [hset, encard_setOf_mem (h.indexed.nodup.sublist (List.take_sublist _ _)),
    List.length_take_of_le (Nat.le_of_lt hlt)]

/-- At the end the nodes are the first states in the breadth-first order. -/
theorem enumerates (h : Invariant system maxStates s)
    (hend : s.frontier = [] ∨ s.graph.truncated = true) : s.graph.Enumerates system where
  first := h.first
  distinct := h.indexed.nodup
  find := h.indexed
  distance := h.distance
  ordered _ _ _ _ := h.lt_iff_precedes
  numbered _ _ := h.encard_precedes hend
  remaining _ hx _ := h.precedes_of_not_mem hend hx

/-- An end without states dropped is exact. -/
theorem isExact (h : Invariant system maxStates s) (hknown : system.Known)
    (hfrontier : s.frontier = []) (hcomplete : s.graph.truncated = false) :
    s.graph.IsExact system where
  toEnumerates := h.enumerates (.inl hfrontier)
  complete := hcomplete
  reachable x := ⟨h.reachable_of_mem, h.mem_of_reachable hfrontier hcomplete⟩
  expanded := h.expanded_of_frontier hfrontier
  successors node hnode := by
    have hreachable := (h.distance node hnode).reachable
    refine ⟨_, TransitionSystem.successors_eq_next hknown hreachable, ?_⟩
    rw [h.successors node hnode, if_pos (h.expanded_of_frontier hfrontier node hnode),
      List.map_filterMap_some_eq_filter_map_isSome, List.filter_eq_self]
    intro found hfound
    obtain ⟨y, hy, rfl⟩ := List.mem_map.mp hfound
    have hleads := (TransitionSystem.leads_iff_mem_next hknown hreachable).mpr hy
    have hmem := h.mem_of_reachable hfrontier hcomplete (.next hreachable hleads)
    obtain ⟨i, hi⟩ := List.mem_iff_getElem?.mp hmem
    exact Option.isSome_of_eq_some ((h.indexed y i).mpr hi)

end Order

end Explorer.Invariant

section Bounds

variable {σ ε : Type} [BEq σ] [Hashable σ] [LawfulBEq σ] [Ord σ] [Std.TransOrd σ]
  {system : TransitionSystem σ ε}

/-- The number of reachable states and the limit both bound the number of levels. -/
theorem exists_end_of_bound (hsystem : system.Explorable) (maxStates : Option Nat) {bound : Nat}
    (hbound : {s | system.Reachable s}.encard ≤ bound ∨
      ∃ m, maxStates = some m ∧ max m 1 ≤ bound) :
    ∃ s, Explorer.Invariant system maxStates s ∧ (s.frontier = [] ∨ s.graph.truncated = true) ∧
      Loop.iterate (Explorer.step system maxStates) (1 + bound) (.start system.initial) =
        .done (.ok s.graph) := by
  refine Explorer.exists_end hsystem fun s h => ?_
  rcases hbound with hencard | ⟨m, hm, hle⟩
  · exact Nat.cast_le.mp (h.size_le_encard.trans hencard)
  · exact (h.size_le m hm).trans hle

/-- Without a limit and with finitely many reachable states the end is exact. -/
theorem exists_exact_end (hsystem : system.Explorable) {bound : Nat}
    (hbound : {s | system.Reachable s}.encard ≤ bound) :
    ∃ graph, graph.IsExact system ∧
      Loop.iterate (Explorer.step system none) (1 + bound) (.start system.initial) =
        .done (.ok graph) := by
  obtain ⟨s, h, hend, hdone⟩ := exists_end_of_bound hsystem none (.inl hbound)
  have hcomplete : s.graph.truncated = false := by
    by_contra htruncated
    obtain ⟨m, hm, _⟩ := h.full (Bool.not_eq_false _ ▸ htruncated)
    cases hm
  have hfrontier := hend.resolve_right (Bool.eq_false_iff.mp hcomplete)
  exact ⟨s.graph, h.isExact hsystem.known hfrontier hcomplete, hdone⟩

end Bounds

namespace Program

variable {program : Program}

/-- The state space of a program that was read from a text can be explored. -/
theorem explorable {source : String} (h : parse source = .ok program) (io : InputModel) :
    (program.stateSpace io).Explorable where
  known _ hs := exists_successors (validate_of_parse h) (inRange_of_parse h) hs
  faithful _ _ hs ht := (confined_of_reachable hs).canonical.eq_of_compare
    (confined_of_reachable ht).canonical

/-- The reachable states of a program can be told apart by the bits set aside for them. -/
theorem encard_reachable_le (program : Program) (io : InputModel) :
    {s | (program.stateSpace io).Reachable s}.encard ≤ (2 ^ program.stateBits io : Nat) := by
  have hsubset : {s | (program.stateSpace io).Reachable s} ⊆
      ((confined_finite program io).toFinset : Set State) := by
    intro s hs
    exact (confined_finite program io).coe_toFinset.symm ▸ confined_of_reachable hs
  refine (Set.encard_le_encard hsubset).trans ?_
  rw [Set.encard_coe_eq_coe_finsetCard]
  exact Nat.cast_le.mpr (card_confined_le program io)

/-- The rounds of an exploration are enough for all reachable states. -/
theorem succ_le_rounds (program : Program) (io : InputModel) :
    1 + 2 ^ program.stateBits io ≤ 2 ^ (program.stateBits io + 1) - 1 := by
  have hbits : 1 ≤ program.stateBits io := Nat.le_add_left _ _
  have htwo : 2 ^ 1 ≤ 2 ^ program.stateBits io := Nat.pow_le_pow_right (by decide) hbits
  rw [Nat.pow_succ]
  omega

end Program

/-- Without a limit the exploration ends with the exact graph: of every system with finitely
many reachable states, once there are rounds for one level more than states, and of every
program that has been parsed. -/
theorem explore_exact :
    (∀ {σ ε : Type} [BEq σ] [Hashable σ] [LawfulBEq σ] [Ord σ] [Std.TransOrd σ]
      (system : TransitionSystem σ ε), system.Explorable → {s | system.Reachable s}.Finite →
      ∃ graph, graph.IsExact system ∧ ∀ rounds,
        {s | system.Reachable s}.ncard + 1 ≤ 2 ^ rounds - 1 →
          system.explore none rounds = .ok graph) ∧
    ∀ source program io, Program.parse source = .ok program →
      ∃ graph, graph.IsExact (program.stateSpace io) ∧ program.explore io none = .ok graph := by
  constructor
  · intro σ ε _ _ _ _ _ system hsystem hfinite
    have hcard : {s | system.Reachable s}.encard ≤ {s | system.Reachable s}.ncard :=
      hfinite.cast_ncard_eq.ge
    obtain ⟨graph, hexact, hdone⟩ := exists_exact_end hsystem hcard
    refine ⟨graph, hexact, fun rounds hrounds => ?_⟩
    exact TransitionSystem.explore_eq hdone (Nat.add_comm _ _ ▸ hrounds)
  · intro source program io hparse
    have hsystem := Program.explorable hparse io
    obtain ⟨graph, hexact, hdone⟩ := exists_exact_end hsystem (program.encard_reachable_le io)
    exact ⟨graph, hexact, TransitionSystem.explore_eq hdone (program.succ_le_rounds io)⟩

/-- Four states with two ways that join, a repeated successor and a way back. -/
def crossing : TransitionSystem (Fin 4) Unit where
  initial := 0
  successors
    | 0 => .ok [2, 1, 2]
    | 1 => .ok [3, 0]
    | 2 => .ok [3]
    | 3 => .ok []

/-- The crossing can be explored. -/
theorem crossing_explorable : crossing.Explorable where
  known
    | 0, _ | 1, _ | 2, _ | 3, _ => ⟨_, rfl⟩
  faithful _ _ _ _ h := Std.LawfulEqOrd.eq_of_compare h

/-- The crossing in three rounds, and a program that marks the whole tape. -/
theorem explore_crossing_exact :
    (∃ graph, graph.IsExact crossing ∧ crossing.explore none 3 = .ok graph) ∧
      Program.parse "+[>+]_end_" = .ok filling ∧
      ∃ graph, graph.IsExact (filling.stateSpace {}) ∧ filling.explore {} none = .ok graph := by
  have hparse : Program.parse "+[>+]_end_" = .ok filling := by rfl
  obtain ⟨hsystems, hprograms⟩ := explore_exact
  obtain ⟨graph, hexact, hexplore⟩ :=
    hsystems crossing crossing_explorable (Set.toFinite _)
  have hcard : {s | crossing.Reachable s}.ncard ≤ 4 :=
    (Set.ncard_le_card _).trans_eq (Nat.card_fin 4)
  exact ⟨⟨graph, hexact, hexplore 3 (by omega)⟩, hparse, hprograms _ _ _ hparse⟩

end TapeReach
