import Mathlib.Data.List.Nodup
import TapeReach.Graph.Basic
import TapeReach.Proofs.Graph.Distance
import TapeReach.Proofs.Lasso.Invariant

/-!
# What one level does to a graph

Each operation that a level is made of is described once: collecting the new
states, sorting them, cutting them to the limit, giving them numbers, and
entering the transitions of the level before. The last part puts them
together.
-/

namespace TapeReach

/-- A node with its transitions entered. -/
def GraphNode.expand {σ : Type} (node : GraphNode σ) (targets : List Nat) : GraphNode σ :=
  { node with expanded := true, successors := targets }

namespace StateGraph

variable {σ ε : Type} [BEq σ] [Hashable σ]

/-- The states by number. -/
def states (graph : StateGraph σ) : List σ := graph.nodes.toList.map GraphNode.state

/-- There is one state for each node. -/
theorem length_states (graph : StateGraph σ) : graph.states.length = graph.size := by
  rw [states, List.length_map, Array.length_toList, size]

/-- The state of a node. -/
theorem getElem?_states (graph : StateGraph σ) (i : Nat) :
    graph.states[i]? = (graph.nodes[i]?).map GraphNode.state := by
  rw [states, List.getElem?_map, Array.getElem?_toList]

/-- The states that have numbers are those of the nodes. -/
theorem mem_index_iff [LawfulBEq σ] {graph : StateGraph σ}
    (h : Search.Indexed graph.index graph.states) {x : σ} :
    x ∈ graph.index ↔ x ∈ graph.states := by
  rw [Std.HashMap.mem_iff_isSome_getElem?, List.mem_iff_getElem?, Option.isSome_iff_exists]
  simp only [h x]

section Collecting

variable {graph : StateGraph σ} {seen : List σ} {found : Std.HashSet σ × List σ}

/-- Of the states seen, those without a number are found, once each. -/
structure Collected (graph : StateGraph σ) (seen : List σ) (found : Std.HashSet σ × List σ) :
    Prop where
  /-- The set holds what is on the list. -/
  agree : ∀ x, x ∈ found.1 ↔ x ∈ found.2
  /-- The list has no repeats. -/
  nodup : found.2.Nodup
  /-- The list holds the states without a number. -/
  mem : ∀ x, x ∈ found.2 ↔ x ∈ seen ∧ x ∉ graph.index

variable [LawfulBEq σ]

/-- One more state is found unless it has a number or was found before. -/
theorem Collected.collect (h : Collected graph seen found) (x : σ) :
    Collected graph (seen ++ [x]) (graph.collect found x) := by
  unfold StateGraph.collect
  split
  · rename_i hold
    have hx : x ∈ graph.index ∨ x ∈ found.2 := by
      rw [← h.agree]
      simpa only [Bool.or_eq_true, Std.HashMap.contains_iff_mem,
        Std.HashSet.contains_iff_mem] using hold
    refine ⟨h.agree, h.nodup, fun y => ?_⟩
    rw [h.mem, List.mem_append, List.mem_singleton]
    constructor
    · rintro ⟨hseen, hnew⟩
      exact ⟨.inl hseen, hnew⟩
    · rintro ⟨hseen | rfl, hnew⟩
      · exact ⟨hseen, hnew⟩
      · exact (h.mem y).mp (hx.resolve_left hnew)
  · rename_i hnew
    obtain ⟨hindex, hfound⟩ : x ∉ graph.index ∧ x ∉ found.2 := by
      rw [← h.agree]
      simpa only [Bool.or_eq_true, Std.HashMap.contains_iff_mem, Std.HashSet.contains_iff_mem,
        not_or] using hnew
    refine ⟨fun y => ?_, List.nodup_cons.mpr ⟨hfound, h.nodup⟩, fun y => ?_⟩
    · rw [Std.HashSet.mem_insert, beq_iff_eq, h.agree, List.mem_cons, eq_comm]
    · rw [List.mem_cons, h.mem, List.mem_append, List.mem_singleton]
      constructor
      · rintro (rfl | ⟨hseen, hy⟩)
        · exact ⟨.inr rfl, hindex⟩
        · exact ⟨.inl hseen, hy⟩
      · rintro ⟨hseen | rfl, hy⟩
        · exact .inr ⟨hseen, hy⟩
        · exact .inl rfl

/-- Collecting a whole list finds its states without a number. -/
theorem Collected.collectAll (h : Collected graph seen found) (states : List σ) :
    Collected graph (seen ++ states) (states.foldl graph.collect found) := by
  induction states generalizing seen found with
  | nil =>
    rw [List.append_nil]
    exact h
  | cons x states ih =>
    have hnext := ih (h.collect x)
    rw [List.append_assoc, List.singleton_append] at hnext
    exact hnext

/-- The new states of a list are collected. -/
theorem collected_fresh (graph : StateGraph σ) (states : List σ) :
    Collected graph states (states.foldl graph.collect (∅, [])) := by
  have hempty : Collected graph [] (∅, []) := by
    refine ⟨fun x => ?_, List.nodup_nil, fun x => ?_⟩
    · simp only [Std.HashSet.not_mem_empty, List.not_mem_nil]
    · simp only [List.not_mem_nil, false_and]
  exact hempty.collectAll states

end Collecting

section Numbering

/-- The graph in which the states of a list have the next numbers. -/
def pushAll (graph : StateGraph σ) (depth : Nat) (states : List σ) : StateGraph σ :=
  states.foldl (fun graph state => graph.push depth state) graph

/-- The nodes of new states come behind the others, without transitions. -/
theorem toList_nodes_pushAll (graph : StateGraph σ) (depth : Nat) (states : List σ) :
    (graph.pushAll depth states).nodes.toList =
      graph.nodes.toList ++ states.map fun x => { state := x, depth } := by
  induction states generalizing graph with
  | nil => simp only [pushAll, List.foldl_nil, List.map_nil, List.append_nil]
  | cons x states ih =>
    have hpush : (graph.push depth x).nodes.toList =
        graph.nodes.toList ++ [{ state := x, depth }] := Array.toList_push
    have htail := ih (graph.push depth x)
    rw [hpush, List.append_assoc, List.singleton_append] at htail
    exact htail

/-- The nodes by number after new states got theirs. -/
theorem getElem?_nodes_pushAll (graph : StateGraph σ) (depth : Nat) (states : List σ) (i : Nat) :
    (graph.pushAll depth states).nodes[i]? =
      if i < graph.size then graph.nodes[i]?
      else (states[i - graph.size]?).map fun x => { state := x, depth } := by
  rw [← Array.getElem?_toList, toList_nodes_pushAll, List.getElem?_append, Array.length_toList,
    List.getElem?_map, Array.getElem?_toList]
  rfl

/-- New states come behind the others. -/
theorem states_pushAll (graph : StateGraph σ) (depth : Nat) (new : List σ) :
    (graph.pushAll depth new).states = graph.states ++ new := by
  rw [states, toList_nodes_pushAll, List.map_append, List.map_map, states]
  congr 1
  exact List.map_id new

/-- States that get numbers for the first time are found by them. -/
theorem indexed_pushAll [LawfulBEq σ] {graph : StateGraph σ} (depth : Nat) {new : List σ}
    (h : Search.Indexed graph.index graph.states) (hnodup : (graph.states ++ new).Nodup) :
    Search.Indexed (graph.pushAll depth new).index (graph.pushAll depth new).states := by
  induction new generalizing graph with
  | nil => exact h
  | cons x new ih =>
    have hpush : (graph.push depth x).states = graph.states ++ [x] :=
      states_pushAll graph depth [x]
    have hsplit : graph.states ++ x :: new = graph.states ++ [x] ++ new := by
      rw [List.append_assoc, List.singleton_append]
    have hx : x ∉ graph.states := by
      intro hmem
      exact (List.nodup_append.mp hnodup).2.2 x hmem x List.mem_cons_self rfl
    rw [hsplit, ← hpush] at hnodup
    refine ih ?_ hnodup
    have hinsert := h.push hx
    rw [length_states] at hinsert
    rw [hpush]
    exact hinsert

end Numbering

section Linking

variable {graph : StateGraph σ} {entries : List (Nat × σ)}

/-- The graph in which the transitions of some nodes have been entered. -/
def linkAll (graph : StateGraph σ) (next : σ → List σ) (entries : List (Nat × σ)) :
    StateGraph σ :=
  entries.foldl (fun graph entry => graph.link entry.1 (next entry.2)) graph

/-- Entering transitions changes one node. -/
theorem getElem?_nodes_link (graph : StateGraph σ) (id : Nat) (successors : List σ) (i : Nat) :
    (graph.link id successors).nodes[i]? = (graph.nodes[i]?).map fun node =>
      if id = i then node.expand (successors.filterMap graph.find?) else node := by
  simp only [link, Array.getElem?_modify]
  split
  · rfl
  · exact Option.map_id'.symm

/-- Entering transitions changes no state. -/
theorem states_link (graph : StateGraph σ) (id : Nat) (successors : List σ) :
    (graph.link id successors).states = graph.states := by
  refine List.ext_getElem? fun i => ?_
  rw [getElem?_states, getElem?_states, getElem?_nodes_link, Option.map_map]
  congr 1
  funext node
  simp only [Function.comp_apply]
  split <;> rfl

/-- Entering many transitions changes no number. -/
theorem index_linkAll (graph : StateGraph σ) (next : σ → List σ) (entries : List (Nat × σ)) :
    (graph.linkAll next entries).index = graph.index := by
  induction entries generalizing graph with
  | nil => rfl
  | cons entry entries ih => exact ih _

/-- Entering many transitions changes no state. -/
theorem states_linkAll (graph : StateGraph σ) (next : σ → List σ) (entries : List (Nat × σ)) :
    (graph.linkAll next entries).states = graph.states := by
  induction entries generalizing graph with
  | nil => rfl
  | cons entry entries ih => exact (ih _).trans (states_link graph _ _)

/-- The transitions of all nodes on a list are entered, and of no others. -/
theorem getElem?_nodes_linkAll (next : σ → List σ)
    (h : ∀ entry ∈ entries, graph.states[entry.1]? = some entry.2) (i : Nat) :
    (graph.linkAll next entries).nodes[i]? = (graph.nodes[i]?).map fun node =>
      if i ∈ entries.map Prod.fst then node.expand ((next node.state).filterMap graph.find?)
      else node := by
  induction entries generalizing graph with
  | nil =>
    simp only [List.map_nil, List.not_mem_nil, if_false]
    exact Option.map_id'.symm
  | cons entry entries ih =>
    have hrest : ∀ other ∈ entries,
        (graph.link entry.1 (next entry.2)).states[other.1]? = some other.2 := by
      intro other hmem
      rw [states_link]
      exact h other (List.mem_cons_of_mem _ hmem)
    have hfirst := h entry List.mem_cons_self
    rw [getElem?_states, Option.map_eq_some_iff] at hfirst
    obtain ⟨first, hfirst, hstate⟩ := hfirst
    refine (ih hrest).trans ?_
    rw [getElem?_nodes_link, Option.map_map]
    refine Option.map_congr fun node hnode => ?_
    simp only [Function.comp_apply, List.map_cons, List.mem_cons]
    by_cases hi : entry.1 = i
    · -- The node may come again later; its transitions are then entered a second time.
      rw [← hi, hfirst] at hnode
      cases hnode
      rw [if_pos hi, if_pos (Or.inl hi.symm), hstate]
      split
      · exact congrArg _ (by rw [GraphNode.expand, hstate]; rfl)
      · rfl
    · rw [if_neg hi]
      refine if_congr ?_ rfl rfl
      simp only [Ne.symm hi, false_or]

/-- The nodes after new states got numbers and the transitions of others were entered. -/
theorem getElem?_nodes_linkAll_pushAll (depth : Nat) (new : List σ) (next : σ → List σ)
    (h : ∀ entry ∈ entries, graph.states[entry.1]? = some entry.2) (i : Nat) :
    ((graph.pushAll depth new).linkAll next entries).nodes[i]? =
      if i < graph.size then (graph.nodes[i]?).map fun node =>
        if i ∈ entries.map Prod.fst then
          node.expand ((next node.state).filterMap
            ((graph.pushAll depth new).linkAll next entries).find?)
        else node
      else (new[i - graph.size]?).map fun x => { state := x, depth } := by
  have hentries : ∀ entry ∈ entries,
      (graph.pushAll depth new).states[entry.1]? = some entry.2 := by
    intro entry hentry
    have hold := h entry hentry
    rw [states_pushAll, List.getElem?_append_left (List.getElem?_eq_some_iff.mp hold).1, hold]
  have hfind : ((graph.pushAll depth new).linkAll next entries).find? =
      (graph.pushAll depth new).find? := by
    funext x
    rw [find?, index_linkAll, find?]
  rw [getElem?_nodes_linkAll next hentries, getElem?_nodes_pushAll, hfind]
  by_cases hi : i < graph.size
  · rw [if_pos hi, if_pos hi]
  · have hnot : i ∉ entries.map Prod.fst := by
      intro hmem
      obtain ⟨entry, hentry, rfl⟩ := List.mem_map.mp hmem
      have hlt := (List.getElem?_eq_some_iff.mp (h entry hentry)).1
      rw [length_states] at hlt
      exact hi hlt
    simp only [hi, hnot, if_false, Option.map_id']

end Linking

end StateGraph

section Parts

variable {σ ε : Type}

/-- States that the order tells apart are strictly sorted. -/
theorem pairwise_lt_mergeSort [Ord σ] [Std.TransOrd σ] {states : List σ} (hnodup : states.Nodup)
    (hfaithful : ∀ a ∈ states, ∀ b ∈ states, compare a b = .eq → a = b) :
    (states.mergeSort fun a b => (compare a b).isLE).Pairwise fun a b => compare a b = .lt := by
  have hperm := states.mergeSort_perm fun a b => (compare a b).isLE
  have htotal : ∀ a b : σ, ((compare a b).isLE || (compare b a).isLE) = true := by
    intro a b
    rw [Std.OrientedOrd.eq_swap (a := b)]
    cases compare a b <;> rfl
  have hsorted : (states.mergeSort fun a b => (compare a b).isLE).Pairwise
      fun a b => (compare a b).isLE = true :=
    List.pairwise_mergeSort (fun _ _ _ => Std.TransCmp.isLE_trans) htotal states
  refine (hsorted.and (hperm.nodup_iff.mpr hnodup)).imp_of_mem fun ha hb ⟨hle, hne⟩ => ?_
  rcases Ordering.isLE_iff_eq_lt_or_eq_eq.mp hle with hlt | heq
  · exact hlt
  · exact absurd (hfaithful _ (hperm.mem_iff.mp ha) _ (hperm.mem_iff.mp hb) heq) hne

/-- A limit keeps the first states, and as many as fit if it drops any. -/
theorem exists_keep_append (maxStates : Option Nat) (size : Nat) (states : List σ) :
    ∃ dropped, Explorer.keep maxStates size states ++ dropped = states ∧
      (∀ m, maxStates = some m → (Explorer.keep maxStates size states).length ≤ m - size) ∧
      (dropped ≠ [] →
        ∃ m, maxStates = some m ∧ (Explorer.keep maxStates size states).length = m - size) := by
  cases maxStates with
  | none =>
    refine ⟨[], List.append_nil _, fun m hm => ?_, fun hne => absurd rfl hne⟩
    cases hm
  | some limit =>
    refine ⟨states.drop (limit - size), List.take_append_drop _ _, fun m hm => ?_, fun hne => ?_⟩
    · cases hm
      exact List.length_take_le _ _
    · refine ⟨limit, rfl, List.length_take_of_le ?_⟩
      have hlt : ¬ states.length ≤ limit - size := fun hle => hne (List.drop_eq_nil_of_le hle)
      omega

/-- The results of all members of a list are known if that of each is. -/
theorem mapM_eq_ok {α β : Type} {f : α → Except ε β} {g : α → β} {xs : List α}
    (h : ∀ x ∈ xs, f x = .ok (g x)) : xs.mapM f = .ok (xs.map g) := by
  induction xs with
  | nil => rfl
  | cons x xs ih =>
    rw [List.mapM_cons, h x List.mem_cons_self, ih fun y hy => h y (List.mem_cons_of_mem _ hy)]
    rfl

/-- Pairing a list with a function of its members. -/
theorem foldl_zip_map {α β γ : Type} (f : γ → α × β → γ) (g : α → β) (xs : List α) (start : γ) :
    (xs.zip (xs.map g)).foldl f start = xs.foldl (fun r x => f r (x, g x)) start := by
  induction xs generalizing start with
  | nil => rfl
  | cons x xs ih => exact ih _

end Parts

namespace Explorer

variable {σ ε : Type} [BEq σ] [Hashable σ] [Ord σ]

/-- What a level does: the states it finds are sorted, some first ones are kept and get the
next numbers, and the transitions of the level before are entered. -/
structure Advance (system : TransitionSystem σ ε) (maxStates : Option Nat)
    (s : Explorer σ) (kept dropped : List σ) (t : Explorer σ) : Prop where
  /-- The states found are the successors of the last level without a number. -/
  found : ∀ x, x ∈ kept ++ dropped ↔
    (∃ entry ∈ s.frontier, x ∈ system.next entry.2) ∧ x ∉ s.graph.states
  /-- The states found are sorted. -/
  sorted : (kept ++ dropped).Pairwise fun a b => compare a b = .lt
  /-- The states kept fit under the limit. -/
  fits : ∀ m, maxStates = some m → kept.length ≤ m - s.graph.size
  /-- Nothing is dropped while there is room. -/
  full : dropped ≠ [] → ∃ m, maxStates = some m ∧ kept.length = m - s.graph.size
  /-- The graph says whether states were dropped. -/
  truncated : t.graph.truncated = true ↔ dropped ≠ []
  /-- The states kept come behind the others. -/
  states : t.graph.states = s.graph.states ++ kept
  /-- States are found by their numbers. -/
  indexed : Search.Indexed t.graph.index t.graph.states
  /-- The nodes of the last level have transitions now, the new nodes have none yet. -/
  nodes : ∀ i, t.graph.nodes[i]? =
    if i < s.graph.size then (s.graph.nodes[i]?).map fun node =>
      if i ∈ s.frontier.map Prod.fst then
        node.expand ((system.next node.state).filterMap t.graph.find?)
      else node
    else (kept[i - s.graph.size]?).map fun x => { state := x, depth := s.depth + 1 }
  /-- The states kept are the next level. -/
  frontier : t.frontier = (kept.zipIdx s.graph.size).map Prod.swap
  /-- The next level is farther by one. -/
  depth : t.depth = s.depth + 1

/-- A level that was not cut short drops nothing. -/
theorem Advance.dropped_eq_nil {system : TransitionSystem σ ε} {maxStates : Option Nat}
    {s t : Explorer σ} {kept dropped : List σ} (h : Advance system maxStates s kept dropped t)
    (hcomplete : t.graph.truncated = false) : dropped = [] := by
  by_contra hne
  rw [h.truncated.mpr hne] at hcomplete
  cases hcomplete

/-- The states without a number that the last level leads to, in order. -/
def found (s : Explorer σ) (next : σ → List σ) : List σ :=
  (s.graph.fresh (s.frontier.map fun entry => next entry.2).flatten).mergeSort
    fun a b => (compare a b).isLE

/-- A level first numbers the states it keeps and then enters the transitions. -/
theorem extend_eq (s : Explorer σ) (maxStates : Option Nat) (next : σ → List σ) :
    s.extend maxStates (s.frontier.map fun entry => next entry.2) =
      ⟨{ (s.graph.pushAll (s.depth + 1) (keep maxStates s.graph.size (s.found next))).linkAll next
          s.frontier with
        truncated := (keep maxStates s.graph.size (s.found next)).length < (s.found next).length },
      ((keep maxStates s.graph.size (s.found next)).zipIdx s.graph.size).map Prod.swap,
      s.depth + 1⟩ := by
  simp only [extend, settle, foldl_zip_map]
  rfl

/-- A limit that drops nothing makes no difference. -/
theorem extend_eq_of_complete {s : Explorer σ} {maxStates : Option Nat} {lists : List (List σ)}
    (h : (s.extend maxStates lists).graph.truncated = false) :
    s.extend maxStates lists = s.extend none lists := by
  obtain ⟨graph, frontier, depth⟩ := s
  simp only [extend, settle, decide_eq_false_iff_not] at h
  obtain ⟨dropped, hsplit, _⟩ := exists_keep_append maxStates graph.size
    ((graph.fresh lists.flatten).mergeSort fun a b => (compare a b).isLE)
  have hlength := congrArg List.length hsplit
  rw [List.length_append] at hlength
  have hdropped : dropped = [] := List.length_eq_zero_iff.mp (by omega)
  rw [hdropped, List.append_nil] at hsplit
  simp only [extend, settle, hsplit]
  rfl

variable [LawfulBEq σ] {s : Explorer σ}

/-- The states found are the successors of the last level without a number. -/
theorem mem_found (next : σ → List σ) (h : Search.Indexed s.graph.index s.graph.states) (x : σ) :
    x ∈ s.found next ↔ (∃ entry ∈ s.frontier, x ∈ next entry.2) ∧ x ∉ s.graph.states := by
  have hmem := (s.graph.collected_fresh (s.frontier.map fun entry => next entry.2).flatten).mem x
  rw [found, (List.mergeSort_perm _ _).mem_iff, StateGraph.fresh, hmem, StateGraph.mem_index_iff h]
  simp only [List.mem_flatten, List.mem_map]
  refine and_congr_left fun _ => ⟨?_, ?_⟩
  · rintro ⟨_, ⟨entry, hentry, rfl⟩, hx⟩
    exact ⟨entry, hentry, hx⟩
  · rintro ⟨entry, hentry, hx⟩
    exact ⟨_, ⟨entry, hentry, rfl⟩, hx⟩

/-- The states found are strictly sorted. -/
theorem sorted_found [Std.TransOrd σ] {next : σ → List σ}
    (hfaithful : ∀ a ∈ s.found next, ∀ b ∈ s.found next, compare a b = .eq → a = b) :
    (s.found next).Pairwise fun a b => compare a b = .lt := by
  have hnodup := (s.graph.collected_fresh
    (s.frontier.map fun entry => next entry.2).flatten).nodup
  refine pairwise_lt_mergeSort hnodup fun a ha b hb => hfaithful a ?_ b ?_
  · exact (List.mergeSort_perm _ _).mem_iff.mpr ha
  · exact (List.mergeSort_perm _ _).mem_iff.mpr hb

/-- What a level adds to a graph whose numbers are right. -/
theorem exists_advance [Std.TransOrd σ] {system : TransitionSystem σ ε} (maxStates : Option Nat)
    (hindexed : Search.Indexed s.graph.index s.graph.states)
    (hfrontier : ∀ entry ∈ s.frontier, s.graph.states[entry.1]? = some entry.2)
    (hfaithful : ∀ a ∈ s.found system.next, ∀ b ∈ s.found system.next,
      compare a b = .eq → a = b) :
    ∃ kept dropped, Advance system maxStates s kept dropped
      (s.extend maxStates (s.frontier.map fun entry => system.next entry.2)) := by
  have hmem := mem_found system.next hindexed
  have hsorted := sorted_found hfaithful
  rw [extend_eq]
  -- From here on only the two parts of the list matter, not how it was found and cut.
  generalize s.found system.next = found at hmem hsorted hfaithful
  obtain ⟨dropped, hsplit, hfits, hfull⟩ := exists_keep_append maxStates s.graph.size found
  generalize keep maxStates s.graph.size found = kept at hsplit hfits hfull
  subst hsplit
  have hnodup : (s.graph.states ++ kept).Nodup := by
    refine List.nodup_append.mpr ⟨hindexed.nodup, ?_, fun a ha b hb heq => ?_⟩
    · refine (List.pairwise_append.mp hsorted).1.imp fun hlt heq => ?_
      rw [heq, Std.compare_self] at hlt
      cases hlt
    · exact ((hmem b).mp (List.mem_append_left _ hb)).2 (heq ▸ ha)
  have hgrown := StateGraph.states_pushAll s.graph (s.depth + 1) kept
  have hlinked : ((s.graph.pushAll (s.depth + 1) kept).linkAll system.next s.frontier).index =
      (s.graph.pushAll (s.depth + 1) kept).index := StateGraph.index_linkAll _ _ _
  have hstates : ((s.graph.pushAll (s.depth + 1) kept).linkAll system.next s.frontier).states =
      s.graph.states ++ kept := (StateGraph.states_linkAll _ _ _).trans hgrown
  exact ⟨kept, dropped, {
    found := hmem
    sorted := hsorted
    fits := hfits
    full := hfull
    truncated := by
      rw [decide_eq_true_iff, List.length_append, ← List.length_pos_iff]
      omega
    states := hstates
    indexed := by
      have h := StateGraph.indexed_pushAll (s.depth + 1) hindexed hnodup
      rw [hgrown] at h
      exact fun x i => hstates ▸ hlinked ▸ h x i
    nodes := StateGraph.getElem?_nodes_linkAll_pushAll (s.depth + 1) kept system.next hfrontier
    frontier := rfl
    depth := rfl }⟩

end Explorer

end TapeReach
