import Mathlib.Order.WellFoundedSet
import TapeReach.Proofs.Budget
import TapeReach.Proofs.Graph.Exactness
import TapeReach.Proofs.Lasso.Agreement

/-!
# What the state graph decides

Where finitely many states avoid a target, the target is inevitable exactly
when these states have no cycle and no dead end among them. A state graph is
itself a transition system, on the numbers of its nodes, and an exact graph
has the same inevitable targets as the system it was built from. So the
search, which goes deep and stops at target states, and the exploration,
which goes level by level through all states, give the same answer, as long as
each label has a number of its own; and the lasso that the search returns lies
in the graph.
-/

namespace TapeReach

namespace TransitionSystem

variable {σ ε : Type} {system : TransitionSystem σ ε} {isTarget : σ → Bool} {s : σ}

/-- A transition between two states that avoid the target. -/
def AvoidingStep (system : TransitionSystem σ ε) (isTarget : σ → Bool) (s t : σ) : Prop :=
  system.Avoids isTarget s ∧ system.Avoids isTarget t ∧ system.Leads s t

/-- An inevitable target leaves no cycle among the states that avoid it. -/
theorem not_transGen_of_inevitable (h : system.Inevitable isTarget system.initial) (s : σ) :
    ¬ Relation.TransGen (system.AvoidingStep isTarget) s s := by
  intro hcycle
  obtain ⟨t, ⟨hs, _, hst⟩, hback⟩ := Relation.TransGen.head'_iff.mp hcycle
  have honward : Relation.ReflTransGen (system.Onward isTarget) t s :=
    Relation.ReflTransGen.mono (fun _ _ hstep => ⟨hstep.1.not_target, hstep.2.2⟩) _ _ hback
  exact (hs.inevitable h).acyclic t ⟨hs.not_target, hst⟩ honward

/-- Finitely many states that avoid a target, without a cycle and without a dead end, cannot
avoid it for ever. -/
theorem Avoids.inevitable_of_acyclic (hfinite : {s | system.Avoids isTarget s}.Finite)
    (honward : ∀ s, system.Avoids isTarget s → ∃ next, system.successors s = .ok next ∧ next ≠ [])
    (hacyclic : ∀ s, ¬ Relation.TransGen (system.AvoidingStep isTarget) s s)
    (hs : system.Avoids isTarget s) : system.Inevitable isTarget s := by
  -- The induction goes against the transitions: what can come later counts as smaller.
  let later : σ → σ → Prop := fun t s => Relation.TransGen (system.AvoidingStep isTarget) s t
  have : IsTrans σ later := ⟨fun _ _ _ htu hst => hst.trans htu⟩
  have : Std.Irrefl later := ⟨hacyclic⟩
  have : IsStrictOrder σ later := {}
  have hwell : {s | system.Avoids isTarget s}.WellFoundedOn later := hfinite.wellFoundedOn
  refine hwell.induction hs fun s hs ih => ?_
  obtain ⟨next, hnext, hne⟩ := honward s hs
  refine .next hnext hne fun t ht => ?_
  cases htarget : isTarget t with
  | true => exact .here htarget
  | false =>
    have hst : system.Leads s t := ⟨next, hnext, ht⟩
    have hmem : system.Avoids isTarget t := .next hs hst htarget
    exact ih t hmem (.single ⟨hs, hmem, hst⟩)

/-- Where finitely many states avoid a target, it is inevitable exactly when they have no
dead end and no cycle among them. -/
theorem inevitable_iff_acyclic (hfinite : {s | system.Avoids isTarget s}.Finite) :
    system.Inevitable isTarget system.initial ↔
      (∀ s, system.Avoids isTarget s → ∃ t, system.Leads s t) ∧
        ∀ s, ¬ Relation.TransGen (system.AvoidingStep isTarget) s s := by
  constructor
  · intro h
    refine ⟨fun s hs => ?_, not_transGen_of_inevitable h⟩
    obtain ⟨next, hnext, hne, _⟩ := (hs.inevitable h).exists_next hs.not_target
    obtain ⟨t, ht⟩ := List.exists_mem_of_ne_nil next hne
    exact ⟨t, next, hnext, ht⟩
  · rintro ⟨hleads, hacyclic⟩
    have honward : ∀ s, system.Avoids isTarget s →
        ∃ next, system.successors s = .ok next ∧ next ≠ [] := by
      intro s hs
      obtain ⟨t, next, hnext, ht⟩ := hleads s hs
      exact ⟨next, hnext, List.ne_nil_of_mem ht⟩
    cases hinitial : isTarget system.initial with
    | true => exact .here hinitial
    | false => exact (Avoids.initial hinitial).inevitable_of_acyclic hfinite honward hacyclic

end TransitionSystem

namespace StateGraph

variable {σ ε : Type} [BEq σ] [Hashable σ]

/-- The nodes that the transitions of a node lead to, in order. -/
def targetsOf (graph : StateGraph σ) (i : Nat) : List Nat :=
  ((graph.nodes[i]?).map GraphNode.successors).getD []

/-- The graph as a transition system on the numbers of its nodes. -/
def asSystem (graph : StateGraph σ) : TransitionSystem Nat Empty :=
  ⟨0, fun i => .ok (graph.targetsOf i)⟩

/-- Whether the state of a node satisfies a target. -/
def holdsAt (graph : StateGraph σ) (isTarget : σ → Bool) (i : Nat) : Bool :=
  (graph.nodes[i]?).any fun node => isTarget node.state

/-- The nodes without the target that are reached from the first node through such nodes
only. -/
def Avoids (graph : StateGraph σ) (isTarget : σ → Bool) (i : Nat) : Prop :=
  graph.asSystem.Avoids (graph.holdsAt isTarget) i

/-- An edge between two nodes that avoid the target. -/
def AvoidingEdge (graph : StateGraph σ) (isTarget : σ → Bool) (i j : Nat) : Prop :=
  graph.Avoids isTarget i ∧ graph.Avoids isTarget j ∧ (i, j) ∈ graph.edges

/-- The nodes that avoid the target have no dead end and no cycle among them. -/
structure Inescapable (graph : StateGraph σ) (isTarget : σ → Bool) : Prop where
  /-- From every such node some edge leads on. -/
  onward : ∀ i, graph.Avoids isTarget i → ∃ j, (i, j) ∈ graph.edges
  /-- No such node is reached again through such nodes. -/
  acyclic : ∀ i, ¬ Relation.TransGen (graph.AvoidingEdge isTarget) i i

/-- Both states are in the graph, and an edge leads from the first to the second. -/
def Linked (graph : StateGraph σ) (s t : σ) : Prop :=
  ∃ i j, graph.find? s = some i ∧ graph.find? t = some j ∧ (i, j) ∈ graph.edges

variable {graph : StateGraph σ} {i j : Nat} {s t : σ}

/-- The edges are the transitions of the graph as a system. -/
theorem mem_edges_iff : (i, j) ∈ graph.edges ↔ graph.asSystem.Leads i j := by
  have hleads : graph.asSystem.Leads i j ↔ j ∈ graph.targetsOf i :=
    ⟨fun ⟨_, hnext, hmem⟩ => Except.ok.inj hnext ▸ hmem, fun hmem => ⟨_, rfl, hmem⟩⟩
  rw [hleads, targetsOf]
  simp only [edges, List.mem_flatMap, List.mem_map, Prod.mk.injEq, Prod.exists,
    List.mem_zipIdx_iff_getElem?, Array.getElem?_toList]
  cases hnode : graph.nodes[i]? with
  | none =>
    simp only [Option.map_none, Option.getD_none, List.not_mem_nil, iff_false]
    rintro ⟨node, k, hk, _, _, rfl, _⟩
    rw [hnode] at hk
    cases hk
  | some node =>
    simp only [Option.map_some, Option.getD_some]
    constructor
    · rintro ⟨other, k, hk, l, hl, rfl, rfl⟩
      rw [hnode] at hk
      cases hk
      exact hl
    · intro hj
      exact ⟨node, i, hnode, j, hj, rfl, rfl⟩

section Exact

variable [Ord σ] {system : TransitionSystem σ ε} {isTarget labelled : σ → Bool}

/-- The node with the number of a state. -/
theorem IsExact.exists_node (h : graph.IsExact system) (hs : graph.find? s = some i) :
    ∃ node, graph.nodes[i]? = some node ∧ node.state = s := by
  have hstate := (h.find s i).mp hs
  rwa [getElem?_states, Option.map_eq_some_iff] at hstate

/-- Every reachable state has a number. -/
theorem IsExact.exists_number (h : graph.IsExact system) (hs : system.Reachable s) :
    ∃ i, graph.find? s = some i := by
  obtain ⟨i, hi⟩ := List.mem_iff_getElem?.mp ((h.reachable s).mpr hs)
  exact ⟨i, (h.find s i).mpr hi⟩

/-- A state with a number is reachable. -/
theorem IsExact.reachable_of_find (h : graph.IsExact system) (hs : graph.find? s = some i) :
    system.Reachable s :=
  (h.reachable s).mp (List.mem_of_getElem? ((h.find s i).mp hs))

/-- The transitions of a node are the numbers of the successors of its state. -/
theorem IsExact.targetsOf_eq (h : graph.IsExact system) (hs : graph.find? s = some i) :
    ∃ next, system.successors s = .ok next ∧
      (graph.targetsOf i).map some = next.map graph.find? := by
  obtain ⟨node, hnode, rfl⟩ := h.exists_node hs
  obtain ⟨next, hnext, hmap⟩ := h.successors node (Array.mem_of_getElem? hnode)
  refine ⟨next, hnext, ?_⟩
  rw [targetsOf, hnode, Option.map_some, Option.getD_some, hmap]

/-- The successors of a state lead to the nodes of its transitions and to no others. -/
theorem IsExact.related_next (h : graph.IsExact system) (hs : graph.find? s = some i) :
    ∃ next, system.successors s = .ok next ∧ (graph.targetsOf i = [] ↔ next = []) ∧
      (∀ j ∈ graph.targetsOf i, ∃ t ∈ next, graph.find? t = some j) ∧
      ∀ t ∈ next, ∃ j ∈ graph.targetsOf i, graph.find? t = some j := by
  obtain ⟨next, hnext, hmap⟩ := h.targetsOf_eq hs
  refine ⟨next, hnext, ?_, fun j hj => ?_, fun t ht => ?_⟩
  · rw [← List.map_eq_nil_iff (f := some), hmap, List.map_eq_nil_iff]
  · have hmem : some j ∈ next.map graph.find? := hmap ▸ List.mem_map_of_mem hj
    exact List.mem_map.mp hmem
  · have hmem : graph.find? t ∈ (graph.targetsOf i).map some := hmap ▸ List.mem_map_of_mem ht
    obtain ⟨j, hj, heq⟩ := List.mem_map.mp hmem
    exact ⟨j, hj, heq.symm⟩

/-- A target holds at the number of a state when it holds in the state. -/
theorem IsExact.holdsAt_eq (h : graph.IsExact system) (hs : graph.find? s = some i) :
    graph.holdsAt isTarget i = isTarget s := by
  obtain ⟨node, hnode, rfl⟩ := h.exists_node hs
  simp only [holdsAt, hnode, Option.any_some]

/-- The initial state has the number zero. -/
theorem IsExact.find?_initial (h : graph.IsExact system) : graph.find? system.initial = some 0 :=
  (h.find _ _).mpr h.first

/-- An exact graph has the inevitable targets of its system. -/
theorem IsExact.inevitable_iff (h : graph.IsExact system)
    (hlabelled : ∀ s, system.Reachable s → labelled s = isTarget s) :
    graph.asSystem.Inevitable (graph.holdsAt labelled) 0 ↔
      system.Inevitable isTarget system.initial := by
  have htarget : ∀ s i, graph.find? s = some i → graph.holdsAt labelled i = isTarget s :=
    fun s i hs => (h.holdsAt_eq hs).trans (hlabelled s (h.reachable_of_find hs))
  constructor
  · intro hgraph
    refine hgraph.of_related (R := fun i s => graph.find? s = some i)
      (fun i s hs hi => htarget s i hs ▸ hi) (fun i s next hs hi hne => ?_) h.find?_initial
    obtain ⟨next', hnext, hnil, hto, hfrom⟩ := h.related_next hs
    cases hi
    exact ⟨next', hnext, fun heq => hne (hnil.mpr heq), hfrom⟩
  · intro hsystem
    refine hsystem.of_related (R := fun s i => graph.find? s = some i)
      (fun s i hs hi => (htarget s i hs).trans hi) (fun s i next hs hi hne => ?_) h.find?_initial
    obtain ⟨next', hnext, hnil, hto, hfrom⟩ := h.related_next hs
    rw [hi] at hnext
    cases hnext
    exact ⟨_, rfl, fun heq => hne (hnil.mp heq), hto⟩

/-- The nodes that are reached in an exact graph are the nodes it has. -/
theorem IsExact.lt_size (h : graph.IsExact system) (hi : graph.asSystem.Reachable i) :
    i < graph.size := by
  have hnumber : ∃ s, graph.find? s = some i := by
    induction hi with
    | initial => exact ⟨_, h.find?_initial⟩
    | next _ hij ih =>
      obtain ⟨s, hs⟩ := ih
      obtain ⟨next, _, _, hto, _⟩ := h.related_next hs
      obtain ⟨_, htargets, hmem⟩ := hij
      cases htargets
      obtain ⟨t, _, ht⟩ := hto _ hmem
      exact ⟨t, ht⟩
  obtain ⟨s, hs⟩ := hnumber
  obtain ⟨node, hnode, _⟩ := h.exists_node hs
  exact (Array.getElem?_eq_some_iff.mp hnode).1

/-- An exact graph is inescapable for the inevitable targets of its system. -/
theorem IsExact.inescapable_iff (h : graph.IsExact system)
    (hlabelled : ∀ s, system.Reachable s → labelled s = isTarget s) :
    graph.Inescapable labelled ↔ system.Inevitable isTarget system.initial := by
  have hfinite : {i | graph.asSystem.Avoids (graph.holdsAt labelled) i}.Finite :=
    (Set.finite_lt_nat graph.size).subset fun _ hi => h.lt_size hi.reachable
  have hedge : graph.AvoidingEdge labelled =
      graph.asSystem.AvoidingStep (graph.holdsAt labelled) := by
    funext i j
    exact congrArg (_ ∧ _ ∧ ·) (propext mem_edges_iff)
  have hiff := TransitionSystem.inevitable_iff_acyclic hfinite
  rw [← h.inevitable_iff hlabelled]
  constructor
  · intro hgraph
    refine hiff.mpr ⟨fun i hi => ?_, hedge ▸ hgraph.acyclic⟩
    obtain ⟨j, hj⟩ := hgraph.onward i hi
    exact ⟨j, mem_edges_iff.mp hj⟩
  · intro hinevitable
    obtain ⟨honward, hacyclic⟩ := hiff.mp hinevitable
    refine ⟨fun i hi => ?_, hedge ▸ hacyclic⟩
    obtain ⟨j, hj⟩ := honward i hi
    exact ⟨j, mem_edges_iff.mpr hj⟩

/-- A transition of the system is an edge of an exact graph. -/
theorem IsExact.linked (h : graph.IsExact system) (hs : system.Reachable s)
    (hst : system.Leads s t) : graph.Linked s t := by
  obtain ⟨i, hi⟩ := h.exists_number hs
  obtain ⟨next, hnext, _, _, hfrom⟩ := h.related_next hi
  obtain ⟨next', hnext', hmem⟩ := hst
  rw [hnext] at hnext'
  cases hnext'
  obtain ⟨j, hj, ht⟩ := hfrom t hmem
  exact ⟨i, j, hi, ht, mem_edges_iff.mpr ⟨_, rfl, hj⟩⟩

end Exact

end StateGraph

variable {program : Program} {label : String} {settings : Settings} {polls : Polls}

/-- The graph of a program that was read from a text, without a limit, is exact. -/
theorem Program.exists_exact_graph {source : String} (hsource : Program.parse source = .ok program)
    (io : InputModel) :
    ∃ graph, graph.IsExact (program.stateSpace io) ∧ program.explore io none = .ok graph := by
  obtain ⟨graph, hexact, hdone⟩ :=
    exists_exact_end (explorable hsource io) (program.encard_reachable_le io)
  exact ⟨graph, hexact, TransitionSystem.explore_eq hdone (program.succ_le_rounds io)⟩

/-- The run past the loop never stands at the last of many names. -/
theorem not_inevitable_crowded {count : Nat} (hcount : 0 < count) :
    ¬ ((crowded count).stateSpace {}).Inevitable
      (fun s => ((crowded count).labelsAt s.pc).contains count.repr) (State.initial none) := by
  intro hinevitable
  have hrun : ((crowded count).stateSpace {}).IsFiniteRun
      [State.initial none, (State.initial none).jump 2] :=
    { first := rfl
      linked := .cons_cons ⟨_, rfl, List.mem_singleton_self _⟩ (.singleton _)
      last := ⟨_, rfl, rfl⟩ }
  obtain ⟨s, hs, hlabel⟩ := hrun.meets hinevitable
  have hpc : s.pc ≠ 1 := by
    rcases List.mem_cons.mp hs with rfl | hs
    · exact Nat.zero_ne_one
    · rw [List.mem_singleton.mp hs]
      exact fun h => nomatch h
  exact not_mem_labelsAt_crowded hcount hpc (List.contains_iff_mem.mp hlabel)

/-- With one label more than there are numbers the search and the exploration disagree: the check
calls the last label unavoidable, and the graph has a way around it. -/
theorem crowded_escapable :
    ∃ source graph, Program.parse source = .ok (crowded UInt32.size) ∧
      checkReach (crowded UInt32.size) (Nat.repr UInt32.size) {} {} =
        .ok ⟨.unavoidable, ⟨0, 1, 0⟩⟩ ∧
      (crowded UInt32.size).explore {} none = .ok graph ∧
      ¬ graph.Inescapable fun s =>
        ((crowded UInt32.size).labelsAt s.pc).contains (Nat.repr UInt32.size) := by
  have hcount : 0 < UInt32.size := by decide
  obtain ⟨source, hsource⟩ := exists_source_crowded hcount
  obtain ⟨graph, hexact, hgraph⟩ := Program.exists_exact_graph hsource {}
  refine ⟨source, graph, hsource, checkReach_crowded hcount (Nat.mod_self _), hgraph, ?_⟩
  rw [hexact.inescapable_iff fun _ _ => rfl]
  exact not_inevitable_crowded hcount

end TapeReach
