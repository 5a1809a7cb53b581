import TapeReach.Proofs.Graph.Level
import TapeReach.Proofs.Loop

/-!
# Invariant of the exploration

Between two levels the graph holds the states up to the distance of the last
level in the breadth-first order, all of them unless the limit has cut that
level short. The states before the last level have their transitions, the
last level has none yet. A level keeps this, so it holds at the end, and the
end is reached because every level that is not the last adds a state.
-/

namespace TapeReach

/-- The successors of all reachable states are known, and no two reachable states are equal
in the order. -/
structure TransitionSystem.Explorable {σ ε : Type} [Ord σ] (system : TransitionSystem σ ε) :
    Prop where
  /-- The successors of every reachable state are known. -/
  known : system.Known
  /-- The order tells reachable states apart. -/
  faithful : ∀ s t, system.Reachable s → system.Reachable t → compare s t = .eq → s = t

namespace Explorer

variable {σ ε : Type} [BEq σ] [Hashable σ] [Ord σ]

/-- What holds between two levels. -/
structure Invariant (system : TransitionSystem σ ε) (maxStates : Option Nat) (s : Explorer σ) :
    Prop where
  /-- States are found by their numbers. -/
  indexed : Search.Indexed s.graph.index s.graph.states
  /-- The initial state comes first. -/
  first : s.graph.states[0]? = some system.initial
  /-- Nodes hold the distances of their states. -/
  distance : ∀ node ∈ s.graph.nodes, system.Distance node.state node.depth
  /-- No node is beyond the last level. -/
  depth_le : ∀ node ∈ s.graph.nodes, node.depth ≤ s.depth
  /-- The states are in the breadth-first order. -/
  ordered : s.graph.states.Pairwise system.Precedes
  /-- No state before the last level is missing. -/
  below : ∀ x d, system.Distance x d → d < s.depth → x ∈ s.graph.states
  /-- No state of the last level is missing unless it was cut short. -/
  level : s.graph.truncated = false → ∀ x, system.Distance x s.depth → x ∈ s.graph.states
  /-- The frontier holds the nodes of the last level. -/
  frontier : ∀ i x, (i, x) ∈ s.frontier ↔
    ∃ node, s.graph.nodes[i]? = some node ∧ node.state = x ∧ node.depth = s.depth
  /-- The nodes before the last level have transitions. -/
  expanded : ∀ node ∈ s.graph.nodes, (node.expanded = true ↔ node.depth < s.depth)
  /-- The transitions are those to states in the graph, in order. -/
  successors : ∀ node ∈ s.graph.nodes, node.successors =
    if node.expanded then (system.next node.state).filterMap s.graph.find? else []
  /-- In a level that was cut short the states dropped come behind those kept, and one of
  them comes before the others. -/
  cut : s.graph.truncated = true → ∃ x, system.Distance x s.depth ∧ x ∉ s.graph.states ∧
    (∀ y ∈ s.graph.states, system.Precedes y x) ∧
    ∀ y, system.Distance y s.depth → y ∉ s.graph.states → y = x ∨ compare x y = .lt
  /-- A level is cut short only when the graph is full. -/
  full : s.graph.truncated = true → ∃ m, maxStates = some m ∧ s.graph.size = max m 1
  /-- The graph does not grow beyond the limit. -/
  size_le : ∀ m, maxStates = some m → s.graph.size ≤ max m 1
  /-- There are at least as many nodes as levels. -/
  depth_le_size : s.depth ≤ s.graph.size
  /-- If the last level is not empty, then there are more. -/
  depth_lt_size : s.frontier ≠ [] → s.depth < s.graph.size

variable {system : TransitionSystem σ ε} {maxStates : Option Nat} {s t : Explorer σ}
  {kept dropped : List σ}

/-- Before the first level the graph holds the initial state. -/
theorem invariant_start [LawfulBEq σ] (system : TransitionSystem σ ε) (maxStates : Option Nat) :
    Invariant system maxStates (.start system.initial) := by
  have hnodes : ∀ node ∈ (start system.initial).graph.nodes,
      node = { state := system.initial, depth := 0 } := by
    intro node hnode
    simpa [start, StateGraph.push] using hnode
  have hempty : Search.Indexed ({} : StateGraph σ).index ({} : StateGraph σ).states := by
    intro x i
    simp [StateGraph.states]
  have hsize : (start system.initial).graph.size = 1 := rfl
  exact {
    indexed := StateGraph.indexed_pushAll 0 hempty (List.nodup_singleton system.initial)
    first := rfl
    distance := fun node hnode => hnodes node hnode ▸ TransitionSystem.distance_initial
    depth_le := fun node hnode => hnodes node hnode ▸ Nat.le_refl 0
    ordered := List.pairwise_singleton _ system.initial
    below := fun x d _ hlt => (Nat.not_lt_zero d hlt).elim
    level := fun _ x hx => List.mem_singleton.mpr hx.eq_initial
    frontier := fun i x => by
      rw [start, List.mem_singleton]
      constructor
      · intro hentry
        cases hentry
        exact ⟨_, rfl, rfl, rfl⟩
      · rintro ⟨node, hnode, rfl, _⟩
        have hi : i < 1 := (Array.getElem?_eq_some_iff.mp hnode).1
        rw [hnodes node (Array.mem_of_getElem? hnode), Nat.lt_one_iff.mp hi]
    expanded := fun node hnode => by
      rw [hnodes node hnode]
      exact ⟨fun h => (Bool.false_ne_true h).elim, fun h => (Nat.lt_irrefl 0 h).elim⟩
    successors := fun node hnode => hnodes node hnode ▸ rfl
    cut := fun h => (Bool.false_ne_true h).elim
    full := fun h => (Bool.false_ne_true h).elim
    size_le := fun m _ => hsize ▸ Nat.le_max_right m 1
    depth_le_size := Nat.zero_le _
    depth_lt_size := fun _ => hsize ▸ Nat.zero_lt_one }

namespace Invariant

/-- The states in the graph are those up to the distance of the last level. -/
theorem mem_states (h : Invariant system maxStates s) (hcomplete : s.graph.truncated = false)
    (x : σ) : x ∈ s.graph.states ↔ ∃ d ≤ s.depth, system.Distance x d := by
  constructor
  · intro hx
    obtain ⟨node, hnode, rfl⟩ := List.mem_map.mp hx
    have hmem : node ∈ s.graph.nodes := Array.mem_toList_iff.mp hnode
    exact ⟨node.depth, h.depth_le node hmem, h.distance node hmem⟩
  · rintro ⟨d, hle, hd⟩
    rcases Nat.lt_or_eq_of_le hle with hlt | rfl
    · exact h.below x d hd hlt
    · exact h.level hcomplete x hd

/-- The states in the frontier are those at the distance of the last level. -/
theorem mem_frontier (h : Invariant system maxStates s) (hcomplete : s.graph.truncated = false)
    (x : σ) : (∃ i, (i, x) ∈ s.frontier) ↔ system.Distance x s.depth := by
  constructor
  · rintro ⟨i, hi⟩
    obtain ⟨node, hnode, rfl, hdepth⟩ := (h.frontier i x).mp hi
    exact hdepth ▸ h.distance node (Array.mem_of_getElem? hnode)
  · intro hx
    obtain ⟨i, hi⟩ := List.mem_iff_getElem?.mp (h.level hcomplete x hx)
    rw [StateGraph.getElem?_states, Option.map_eq_some_iff] at hi
    obtain ⟨node, hnode, rfl⟩ := hi
    have hdepth := (h.distance node (Array.mem_of_getElem? hnode)).unique hx
    exact ⟨i, (h.frontier i _).mpr ⟨node, hnode, rfl, hdepth⟩⟩

/-- The states a level finds are those at the next distance. -/
theorem found_iff (h : Invariant system maxStates s) (hknown : system.Known)
    (hcomplete : s.graph.truncated = false) (x : σ) :
    ((∃ entry ∈ s.frontier, x ∈ system.next entry.2) ∧ x ∉ s.graph.states) ↔
      system.Distance x (s.depth + 1) := by
  rw [TransitionSystem.distance_succ_iff]
  refine and_congr ⟨?_, ?_⟩ ?_
  · rintro ⟨⟨i, y⟩, hentry, hx⟩
    have hy := (h.mem_frontier hcomplete y).mp ⟨i, hentry⟩
    exact ⟨y, hy, (TransitionSystem.leads_iff_mem_next hknown hy.reachable).mpr hx⟩
  · rintro ⟨y, hy, hyx⟩
    obtain ⟨i, hentry⟩ := (h.mem_frontier hcomplete y).mpr hy
    exact ⟨(i, y), hentry, (TransitionSystem.leads_iff_mem_next hknown hy.reachable).mp hyx⟩
  · rw [h.mem_states hcomplete]
    simp only [not_exists, not_and]

/-- The numbers in the frontier are those of nodes at its distance. -/
theorem mem_map_frontier (h : Invariant system maxStates s) {i : Nat} {node : GraphNode σ}
    (hnode : s.graph.nodes[i]? = some node) :
    i ∈ s.frontier.map Prod.fst ↔ node.depth = s.depth := by
  rw [List.mem_map]
  constructor
  · rintro ⟨⟨j, x⟩, hentry, rfl⟩
    obtain ⟨other, hother, _, hdepth⟩ := (h.frontier j x).mp hentry
    rw [hnode, Option.some.injEq] at hother
    rw [hother, hdepth]
  · intro hdepth
    exact ⟨(i, node.state), (h.frontier i _).mpr ⟨node, hnode, rfl, hdepth⟩, rfl⟩

/-- A node behind a level was on the level before and has transitions now, or was there
earlier, or is new. -/
theorem node_cases (h : Invariant system maxStates s)
    (hadv : Advance system maxStates s kept dropped t) {i : Nat} {node : GraphNode σ}
    (hnode : t.graph.nodes[i]? = some node) :
    (∃ old, s.graph.nodes[i]? = some old ∧
      (old.depth = s.depth ∧ node = old.expand ((system.next old.state).filterMap t.graph.find?) ∨
        old.depth < s.depth ∧ node = old)) ∨
    s.graph.size ≤ i ∧ ∃ x, kept[i - s.graph.size]? = some x ∧
      node = { state := x, depth := s.depth + 1 } := by
  rw [hadv.nodes] at hnode
  by_cases hi : i < s.graph.size
  · rw [if_pos hi, Option.map_eq_some_iff] at hnode
    obtain ⟨old, hold, hnode⟩ := hnode
    simp only [h.mem_map_frontier hold] at hnode
    refine .inl ⟨old, hold, ?_⟩
    split at hnode
    · rename_i hdepth
      exact .inl ⟨hdepth, hnode.symm⟩
    · rename_i hdepth
      have hle := h.depth_le old (Array.mem_of_getElem? hold)
      exact .inr ⟨by omega, hnode.symm⟩
  · rw [if_neg hi, Option.map_eq_some_iff] at hnode
    obtain ⟨x, hx, hnode⟩ := hnode
    exact .inr ⟨Nat.le_of_not_lt hi, x, hx, hnode.symm⟩

/-- A level changes no number. -/
theorem find?_eq (h : Invariant system maxStates s)
    (hadv : Advance system maxStates s kept dropped t) {x : σ} (hx : x ∈ s.graph.states) :
    t.graph.find? x = s.graph.find? x := by
  obtain ⟨i, hi⟩ := List.mem_iff_getElem?.mp hx
  have hlt := (List.getElem?_eq_some_iff.mp hi).1
  have hnew : t.graph.states[i]? = some x := by
    rw [hadv.states, List.getElem?_append_left hlt, hi]
  exact ((hadv.indexed x i).mpr hnew).trans ((h.indexed x i).mpr hi).symm

/-- The new frontier holds the nodes of the new level. -/
theorem advance_frontier (h : Invariant system maxStates s)
    (hadv : Advance system maxStates s kept dropped t) (i : Nat) (x : σ) :
    (i, x) ∈ t.frontier ↔
      ∃ node, t.graph.nodes[i]? = some node ∧ node.state = x ∧ node.depth = s.depth + 1 := by
  rw [hadv.frontier, List.mem_map]
  constructor
  · rintro ⟨⟨y, j⟩, hmem, hswap⟩
    cases hswap
    obtain ⟨hle, hx⟩ := List.mem_zipIdx_iff_le_and_getElem?_sub.mp hmem
    refine ⟨{ state := y, depth := s.depth + 1 }, ?_, rfl, rfl⟩
    rw [hadv.nodes, if_neg (Nat.not_lt.mpr hle)]
    simp only at hx
    rw [hx]
    rfl
  · rintro ⟨node, hnode, rfl, hdepth⟩
    rcases h.node_cases hadv hnode with ⟨old, hold, hcase⟩ | ⟨hle, y, hy, rfl⟩
    · have hle := h.depth_le old (Array.mem_of_getElem? hold)
      rcases hcase with ⟨_, rfl⟩ | ⟨_, rfl⟩
      · simp only [GraphNode.expand] at hdepth
        omega
      · omega
    · exact ⟨(y, i), List.mem_zipIdx_iff_le_and_getElem?_sub.mpr ⟨hle, hy⟩, rfl⟩

section Advance

variable (h : Invariant system maxStates s) (hadv : Advance system maxStates s kept dropped t)
  (hcomplete : s.graph.truncated = false)
include h hadv hcomplete

/-- The states found are those at the distance of the new level. -/
theorem mem_found_iff (hknown : system.Known) (x : σ) :
    x ∈ kept ++ dropped ↔ system.Distance x (s.depth + 1) :=
  (hadv.found x).trans (h.found_iff hknown hcomplete x)

/-- A level keeps the nodes and their distances right. -/
theorem advance_distance (hknown : system.Known) (node : GraphNode σ)
    (hnode : node ∈ t.graph.nodes) :
    system.Distance node.state node.depth ∧ node.depth ≤ s.depth + 1 := by
  obtain ⟨i, hi⟩ := Array.mem_iff_getElem?.mp hnode
  rcases h.node_cases hadv hi with ⟨old, hold, hcase⟩ | ⟨_, x, hx, rfl⟩
  · have hmem := Array.mem_of_getElem? hold
    have hle := h.depth_le old hmem
    rcases hcase with ⟨_, rfl⟩ | ⟨_, rfl⟩
    · exact ⟨h.distance old hmem, by simp only [GraphNode.expand]; omega⟩
    · exact ⟨h.distance node hmem, by omega⟩
  · have hfound := List.mem_append_left dropped (List.mem_of_getElem? hx)
    exact ⟨(h.mem_found_iff hadv hcomplete hknown x).mp hfound, Nat.le_refl _⟩

/-- Every state kept comes behind the states that were there. -/
theorem precedes_found (hknown : system.Known) {x y : σ} (hx : x ∈ s.graph.states)
    (hy : y ∈ kept ++ dropped) : system.Precedes x y := by
  obtain ⟨d, hle, hd⟩ := (h.mem_states hcomplete x).mp hx
  exact hd.precedes_of_lt ((h.mem_found_iff hadv hcomplete hknown y).mp hy) (by omega)

/-- The states found are in the breadth-first order. -/
theorem pairwise_found (hknown : system.Known) :
    (kept ++ dropped).Pairwise system.Precedes := by
  refine hadv.sorted.imp_of_mem fun {x y} hx hy hlt => ?_
  have hdx := (h.mem_found_iff hadv hcomplete hknown x).mp hx
  have hdy := (h.mem_found_iff hadv hcomplete hknown y).mp hy
  exact hdx.precedes_of_compare hdy hlt

/-- Exactly the nodes before the new level have transitions, and theirs are complete. -/
theorem advance_successors (hknown : system.Known) (node : GraphNode σ)
    (hnode : node ∈ t.graph.nodes) :
    (node.expanded = true ↔ node.depth < s.depth + 1) ∧ node.successors =
      if node.expanded then (system.next node.state).filterMap t.graph.find? else [] := by
  obtain ⟨i, hi⟩ := Array.mem_iff_getElem?.mp hnode
  rcases h.node_cases hadv hi with ⟨old, hold, ⟨hdepth, rfl⟩ | ⟨hdepth, rfl⟩⟩ | ⟨_, x, _, rfl⟩
  · refine ⟨?_, rfl⟩
    simp only [GraphNode.expand, true_iff]
    omega
  · have hmem := Array.mem_of_getElem? hold
    have hexpanded := (h.expanded node hmem).mpr hdepth
    refine ⟨?_, ?_⟩
    · simp only [hexpanded, true_iff]
      omega
    · rw [h.successors node hmem, if_pos hexpanded, if_pos hexpanded]
      -- All successors had numbers already, because they are nearer than the new level.
      refine List.filterMap_congr fun y hy => (h.find?_eq hadv ?_).symm
      have hdistance := h.distance node hmem
      have hleads := (TransitionSystem.leads_iff_mem_next hknown hdistance.reachable).mpr hy
      obtain ⟨d, hle, hd⟩ := hdistance.exists_next hleads
      exact (h.mem_states hcomplete y).mpr ⟨d, by omega, hd⟩
  · refine ⟨?_, rfl⟩
    simp only [Bool.false_eq_true, Nat.lt_irrefl]

/-- The first state dropped comes behind the states kept and before the other states
dropped. -/
theorem advance_cut [Std.OrientedOrd σ] (hknown : system.Known)
    (htruncated : t.graph.truncated = true) :
    ∃ x, system.Distance x (s.depth + 1) ∧ x ∉ t.graph.states ∧
      (∀ y ∈ t.graph.states, system.Precedes y x) ∧
      ∀ y, system.Distance y (s.depth + 1) → y ∉ t.graph.states → y = x ∨ compare x y = .lt := by
  obtain ⟨x, rest, rfl⟩ := List.exists_cons_of_ne_nil (hadv.truncated.mp htruncated)
  have hfound := h.mem_found_iff hadv hcomplete hknown
  have hx : x ∈ kept ++ x :: rest := List.mem_append_right _ List.mem_cons_self
  obtain ⟨_, hdropped, hbefore⟩ := List.pairwise_append.mp (h.pairwise_found hadv hcomplete hknown)
  have hprecedes : ∀ y ∈ t.graph.states, system.Precedes y x := by
    intro y hy
    rw [hadv.states, List.mem_append] at hy
    rcases hy with hy | hy
    · exact h.precedes_found hadv hcomplete hknown hy hx
    · exact hbefore y hy x List.mem_cons_self
  refine ⟨x, (hfound x).mp hx, fun hmem => (hprecedes x hmem).irrefl, hprecedes, ?_⟩
  intro y hy hnot
  have hsorted := (List.pairwise_append.mp hadv.sorted).2.1
  have hmem : y ∈ x :: rest := by
    refine (List.mem_append.mp ((hfound y).mpr hy)).resolve_left fun hkept => hnot ?_
    rw [hadv.states]
    exact List.mem_append_right _ hkept
  rcases List.mem_cons.mp hmem with rfl | hrest
  · exact .inl rfl
  · exact .inr ((List.pairwise_cons.mp hsorted).1 y hrest)

/-- A level keeps the invariant. -/
theorem advance [Std.OrientedOrd σ] (hknown : system.Known) (hfrontier : s.frontier ≠ []) :
    Invariant system maxStates t := by
  have hsize : t.graph.size = s.graph.size + kept.length := by
    rw [← StateGraph.length_states, hadv.states, List.length_append, StateGraph.length_states]
  have hlt := h.depth_lt_size hfrontier
  have hfound := h.mem_found_iff hadv hcomplete hknown
  have hdepth := hadv.depth
  exact {
    indexed := hadv.indexed
    first := by
      rw [hadv.states, List.getElem?_append_left, h.first]
      exact (List.getElem?_eq_some_iff.mp h.first).1
    distance := fun node hnode => (h.advance_distance hadv hcomplete hknown node hnode).1
    depth_le := fun node hnode =>
      hdepth ▸ (h.advance_distance hadv hcomplete hknown node hnode).2
    ordered := by
      rw [hadv.states]
      have hkept := (List.pairwise_append.mp (h.pairwise_found hadv hcomplete hknown)).1
      refine List.pairwise_append.mpr ⟨h.ordered, hkept, fun x hx y hy => ?_⟩
      exact h.precedes_found hadv hcomplete hknown hx (List.mem_append_left _ hy)
    below := by
      intro x d hd hle
      rw [hadv.states]
      exact List.mem_append_left _ ((h.mem_states hcomplete x).mpr ⟨d, by omega, hd⟩)
    level := by
      intro htruncated x hx
      rw [hdepth, ← hfound, hadv.dropped_eq_nil htruncated, List.append_nil] at hx
      rw [hadv.states]
      exact List.mem_append_right _ hx
    frontier := hdepth ▸ h.advance_frontier hadv
    expanded := fun node hnode =>
      hdepth ▸ (h.advance_successors hadv hcomplete hknown node hnode).1
    successors := fun node hnode => (h.advance_successors hadv hcomplete hknown node hnode).2
    cut := hdepth ▸ h.advance_cut hadv hcomplete hknown
    full := by
      -- There was at least one node before, so a full level makes up `max m 1` nodes.
      intro htruncated
      obtain ⟨m, hm, hlength⟩ := hadv.full (hadv.truncated.mp htruncated)
      have hle := h.size_le m hm
      exact ⟨m, hm, by omega⟩
    size_le := by
      intro m hm
      have hfits := hadv.fits m hm
      have hle := h.size_le m hm
      omega
    depth_le_size := by omega
    depth_lt_size := by
      intro hne
      have hkept : kept ≠ [] := by
        rintro rfl
        exact hne hadv.frontier
      have hpos := List.length_pos_iff.mpr hkept
      omega }

end Advance

/-- The states of the last level are reachable. -/
theorem reachable_frontier (h : Invariant system maxStates s) {entry : Nat × σ}
    (hentry : entry ∈ s.frontier) : system.Reachable entry.2 := by
  obtain ⟨node, hnode, hstate, _⟩ := (h.frontier entry.1 entry.2).mp hentry
  exact hstate ▸ (h.distance node (Array.mem_of_getElem? hnode)).reachable

/-- The successors of the last level are known. -/
theorem mapM_successors (h : Invariant system maxStates s) (hknown : system.Known) :
    (s.frontier.mapM fun entry => system.successors entry.2) =
      .ok (s.frontier.map fun entry => system.next entry.2) :=
  mapM_eq_ok fun _ hentry =>
    TransitionSystem.successors_eq_next hknown (h.reachable_frontier hentry)

/-- The exploration ends when the last level is empty or was cut short, and goes on with
the successors of the last level otherwise, whatever the limit. -/
theorem step_eq (h : Invariant system maxStates s) (hknown : system.Known)
    (limit : Option Nat) :
    step system limit s =
      if s.frontier = [] ∨ s.graph.truncated = true then .done (.ok s.graph)
      else .more (s.extend limit (s.frontier.map fun entry => system.next entry.2)) := by
  simp only [step, h.mapM_successors hknown, Bool.or_eq_true, List.isEmpty_iff]

/-- The successors of the last level are reachable. -/
theorem reachable_next (h : Invariant system maxStates s) (hknown : system.Known) {x : σ}
    (hx : x ∈ (s.frontier.map fun entry => system.next entry.2).flatten) : system.Reachable x := by
  obtain ⟨_, hnext, hx⟩ := List.mem_flatten.mp hx
  obtain ⟨entry, hentry, rfl⟩ := List.mem_map.mp hnext
  have hreachable := h.reachable_frontier hentry
  exact hreachable.next ((TransitionSystem.leads_iff_mem_next hknown hreachable).mpr hx)

/-- What a level adds to a graph that has not been cut short. -/
theorem exists_advance [LawfulBEq σ] [Std.TransOrd σ] (h : Invariant system maxStates s)
    (hsystem : system.Explorable) (hcomplete : s.graph.truncated = false) :
    ∃ kept dropped, Advance system maxStates s kept dropped
      (s.extend maxStates (s.frontier.map fun entry => system.next entry.2)) := by
  have hvalid : ∀ entry ∈ s.frontier, s.graph.states[entry.1]? = some entry.2 := by
    intro entry hentry
    obtain ⟨node, hnode, hstate, _⟩ := (h.frontier entry.1 entry.2).mp hentry
    rw [StateGraph.getElem?_states, hnode, Option.map_some, hstate]
  have hreachable : ∀ x ∈ s.found system.next, system.Reachable x := by
    intro x hx
    rw [mem_found system.next h.indexed, h.found_iff hsystem.known hcomplete] at hx
    exact hx.reachable
  exact Explorer.exists_advance maxStates h.indexed hvalid fun a ha b hb =>
    hsystem.faithful a b (hreachable a ha) (hreachable b hb)

/-- A level that the exploration goes on with keeps the invariant. -/
theorem step_more [LawfulBEq σ] [Std.TransOrd σ] (h : Invariant system maxStates s)
    (hsystem : system.Explorable) (hstep : step system maxStates s = .more t) :
    Invariant system maxStates t := by
  rw [h.step_eq hsystem.known] at hstep
  split at hstep
  · cases hstep
  · rename_i hopen
    obtain ⟨hfrontier, htruncated⟩ := not_or.mp hopen
    have hcomplete : s.graph.truncated = false := Bool.eq_false_iff.mpr htruncated
    obtain ⟨kept, dropped, hadv⟩ := h.exists_advance hsystem hcomplete
    cases hstep
    exact h.advance hadv hcomplete hsystem.known hfrontier

end Invariant

/-- The distance of the last level counts the levels. -/
theorem depth_of_step_more (h : step system maxStates s = .more t) : t.depth = s.depth + 1 := by
  unfold step at h
  split at h
  · cases h
  · split at h
    · cases h
    · cases h
      rfl

/-- An exploration whose graphs have at most `bound` nodes ends within one level more. -/
theorem exists_end [LawfulBEq σ] [Std.TransOrd σ] (hsystem : system.Explorable) {bound : Nat}
    (hbound : ∀ s, Invariant system maxStates s → s.graph.size ≤ bound) :
    ∃ s, Invariant system maxStates s ∧ (s.frontier = [] ∨ s.graph.truncated = true) ∧
      Loop.iterate (step system maxStates) (1 + bound) (.start system.initial) =
        .done (.ok s.graph) := by
  have hmore : ∀ s t, Invariant system maxStates s → step system maxStates s = .more t →
      Invariant system maxStates t := fun _ _ h => h.step_more hsystem
  have hstart := invariant_start system maxStates
  obtain ⟨r, hr⟩ := Loop.iterate_done_of_bounded hmore (fun _ _ => depth_of_step_more)
    (fun s h => Nat.le_trans h.depth_le_size (hbound s h)) hstart
  obtain ⟨s, hs, hdone⟩ := Loop.iterate_done_invariant hmore hstart hr
  rw [hs.step_eq hsystem.known] at hdone
  split at hdone
  · rename_i hend
    cases hdone
    exact ⟨s, hs, hend, hr⟩
  · cases hdone

end Explorer

/-- Enough rounds give the graph that the levels end with. -/
theorem TransitionSystem.explore_eq {σ ε : Type} [BEq σ] [Hashable σ] [Ord σ]
    {system : TransitionSystem σ ε} {maxStates : Option Nat} {n rounds : Nat}
    {result : Except ε (StateGraph σ)}
    (h : Loop.iterate (Explorer.step system maxStates) n (.start system.initial) = .done result)
    (hrounds : n ≤ 2 ^ rounds - 1) : system.explore maxStates rounds = result := by
  have hall := Loop.iterate_eq_done_of_le h hrounds
  rw [TransitionSystem.explore, Loop.rounds_eq_iterate, Nat.mul_one, hall]

end TapeReach
