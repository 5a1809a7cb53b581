import Mathlib.Data.List.Nodup
import TapeReach.Proofs.Lasso.Step
import TapeReach.Proofs.Loop
import TapeReach.Proofs.Reachability

/-!
# The invariant of a search

Between two iterations the path is a path of the system from the initial
state through states that do not satisfy the target, and the index of the
path agrees with it. A closed state has successors, and each of them
satisfies the target or is closed; since a state is closed after its
successors, the target is inevitable from it. Of a state on the path, each
successor that has been tried satisfies the target, is closed, or is the next
state of the path.

Each kind of iteration keeps all this, so it holds along every search.
-/

namespace TapeReach.Search

variable {σ ε : Type} [BEq σ] [Hashable σ]

/-- The map gives exactly the positions of the states on the path. -/
def Indexed (onStack : Std.HashMap σ Nat) (path : List σ) : Prop :=
  ∀ (x : σ) (i : Nat), onStack[x]? = some i ↔ path[i]? = some x

/-- The successors of the `i`-th state of the path that are no longer pending satisfy
the target, are closed, or come next on the path. -/
def Tried (system : TransitionSystem σ ε) (isTarget : σ → Bool) (closed : Std.HashSet σ)
    (path : List σ) (i : Nat) (frame : Frame σ) : Prop :=
  ∃ tried, system.successors frame.state = .ok (tried ++ frame.pending) ∧
    tried ++ frame.pending ≠ [] ∧
    ∀ y ∈ tried, isTarget y = true ∨ y ∈ closed ∨ path[i + 1]? = some y

/-- What holds between two iterations of a search. -/
structure Invariant (system : TransitionSystem σ ε) (isTarget : σ → Bool) (s : Search σ) :
    Prop where
  /-- The index of the path agrees with the path. -/
  indexed : Indexed s.onStack s.path
  /-- A path that is not empty starts in the initial state. -/
  first : ∀ x, s.path.head? = some x → x = system.initial
  /-- Each state of the path is among the successors of the one before it. -/
  linked : s.path.IsChain system.Leads
  /-- The states of the path are reached through states without the target. -/
  avoids : ∀ x ∈ s.path, system.Avoids isTarget x
  /-- No state of the path is closed. -/
  apart : ∀ x ∈ s.path, x ∉ s.closed
  /-- The initial state is on the path or closed. -/
  seen : system.initial ∈ s.path ∨ system.initial ∈ s.closed
  /-- Every state visited is on the path or closed. -/
  visited : s.stats.visited = s.stack.size + s.closed.size
  /-- Closed states are reached through states without the target. -/
  closedAvoids : ∀ x ∈ s.closed, system.Avoids isTarget x
  /-- Closed states lead to target states and closed states only, and to at least one. -/
  closedNext : ∀ x ∈ s.closed, ∃ next, system.successors x = .ok next ∧ next ≠ [] ∧
    ∀ y ∈ next, isTarget y = true ∨ y ∈ s.closed
  /-- The target is inevitable from closed states. -/
  closedInevitable : ∀ x ∈ s.closed, system.Inevitable isTarget x
  /-- The successors tried from the states of the path are accounted for. -/
  tried : ∀ i frame, s.stack[i]? = some frame →
    Tried system isTarget s.closed s.path i frame

/-- The states that have been entered: those that are closed and those of the path. -/
def held (s : Search σ) : List σ := s.closed.toList ++ s.path

variable {system : TransitionSystem σ ε} {isTarget : σ → Bool} {limits : Limits} {polls : Polls}

section Index

variable {onStack : Std.HashMap σ Nat} {path : List σ} {x : σ}

/-- A path that is indexed has no repeats. -/
theorem Indexed.nodup (h : Indexed onStack path) : path.Nodup := by
  rw [List.nodup_iff_getElem?_ne_getElem?]
  intro i j hij hj heq
  have hjx := List.getElem?_eq_getElem hj
  have hi := (h _ _).mpr (heq.trans hjx)
  rw [(h _ _).mpr hjx, Option.some.injEq] at hi
  omega

/-- A state without an index is not on the path. -/
theorem Indexed.not_mem (h : Indexed onStack path) (hx : onStack[x]? = none) : x ∉ path := by
  intro hmem
  obtain ⟨i, hi⟩ := List.mem_iff_getElem?.mp hmem
  rw [(h x i).mpr hi] at hx
  cases hx

/-- The last state of a path does not come earlier. -/
theorem Indexed.last_not_mem {front : List σ} (h : Indexed onStack (front ++ [x])) :
    x ∉ front := by
  have hnodup := h.nodup
  rw [List.nodup_append] at hnodup
  exact fun hx => hnodup.2.2 x hx x List.mem_cons_self rfl

variable [LawfulBEq σ]

/-- A new state gets the index behind the last one. -/
theorem Indexed.push (h : Indexed onStack path) (hx : x ∉ path) :
    Indexed (onStack.insert x path.length) (path ++ [x]) := by
  intro y i
  rw [Std.HashMap.getElem?_insert]
  by_cases hxy : x = y
  · subst hxy
    have hi : path[i]? ≠ some x := fun hi => hx (List.mem_of_getElem? hi)
    simp only [BEq.rfl, if_true, Option.some.injEq]
    grind
  · have hne : (x == y) = false := by simpa only [beq_eq_false_iff_ne] using hxy
    rw [hne, if_neg Bool.false_ne_true, h y i]
    grind

/-- Without its last state the path is indexed by what remains. -/
theorem Indexed.pop {front : List σ} (h : Indexed onStack (front ++ [x])) :
    Indexed (onStack.erase x) front := by
  intro y i
  rw [Std.HashMap.getElem?_erase]
  by_cases hxy : x = y
  · subst hxy
    have hi : front[i]? ≠ some x := fun hi => h.last_not_mem (List.mem_of_getElem? hi)
    simp only [BEq.rfl, if_true, reduceCtorEq, false_iff]
    exact hi
  · have hne : (x == y) = false := by simpa only [beq_eq_false_iff_ne] using hxy
    rw [hne, if_neg Bool.false_ne_true, h y i]
    grind

end Index

/-- The state of the last frame is on the path. -/
theorem mem_path_of_push {s : Search σ} {front : Array (Frame σ)} {x : σ} {pending : List σ}
    (hs : s.stack = front.push ⟨x, pending⟩) : x ∈ s.path := by
  rw [path_of_push hs]
  exact List.mem_append_right _ List.mem_cons_self

/-- The path has one state more than there are frames before the last. -/
theorem path_length_of_push {s : Search σ} {front : Array (Frame σ)} {x : σ} {pending : List σ}
    (hs : s.stack = front.push ⟨x, pending⟩) : s.path.length = front.size + 1 := by
  simp only [path_of_push hs, List.length_append, List.length_map, Array.length_toList,
    List.length_singleton]

/-- What has been tried from the last state of the path: target states and closed states. -/
theorem Invariant.tried_last {s : Search σ} (h : Invariant system isTarget s)
    {front : Array (Frame σ)} {x : σ} {pending : List σ}
    (hs : s.stack = front.push ⟨x, pending⟩) :
    ∃ tried, system.successors x = .ok (tried ++ pending) ∧ tried ++ pending ≠ [] ∧
      ∀ y ∈ tried, isTarget y = true ∨ y ∈ s.closed := by
  have hlast : s.stack[front.size]? = some ⟨x, pending⟩ := by
    rw [hs, Array.getElem?_push_size]
  obtain ⟨tried, hnext, hne, htried⟩ := h.tried _ _ hlast
  refine ⟨tried, hnext, hne, fun y hy => ?_⟩
  rcases htried y hy with ht | hc | hp
  · exact .inl ht
  · exact .inr hc
  · have hlen := path_length_of_push hs
    rw [List.getElem?_eq_none (by omega)] at hp
    cases hp

/-- A successor that is left leads on from the last state of the path. -/
theorem Invariant.leads_next {s : Search σ} (h : Invariant system isTarget s)
    {front : Array (Frame σ)} {x y : σ} {rest : List σ}
    (hs : s.stack = front.push ⟨x, y :: rest⟩) : system.Leads x y := by
  obtain ⟨tried, hx, _, _⟩ := h.tried_last hs
  exact ⟨_, hx, List.mem_append_right _ List.mem_cons_self⟩

/-- The path and a successor that is left form a path of the system. -/
theorem Invariant.linked_next {s : Search σ} (h : Invariant system isTarget s)
    {front : Array (Frame σ)} {x y : σ} {rest : List σ}
    (hs : s.stack = front.push ⟨x, y :: rest⟩) : (s.path ++ [y]).IsChain system.Leads := by
  have hlast : s.path.getLast? = some x := by
    rw [path_of_push hs, List.getLast?_concat]
  refine h.linked.append (List.isChain_singleton y) ?_
  simp only [hlast, Option.mem_some_iff, List.head?_cons]
  rintro _ rfl _ rfl
  exact h.leads_next hs

/-- The path and a successor that is left start in the initial state. -/
theorem Invariant.first_next {s : Search σ} (h : Invariant system isTarget s)
    {front : Array (Frame σ)} {x y : σ} {rest : List σ}
    (hs : s.stack = front.push ⟨x, y :: rest⟩) :
    (s.path ++ [y]).head? = some system.initial := by
  have hne : s.path ≠ [] := by
    rw [path_of_push hs]
    exact List.concat_ne_nil _ _
  rw [List.head?_append_of_ne_nil _ hne, List.head?_eq_some_head hne, Option.some.injEq]
  exact h.first _ (List.head?_eq_some_head hne)

/-- With a successor without the target the path still avoids the target. -/
theorem Invariant.avoids_next {s : Search σ} (h : Invariant system isTarget s)
    {front : Array (Frame σ)} {x y : σ} {rest : List σ}
    (hs : s.stack = front.push ⟨x, y :: rest⟩) (ht : isTarget y = false) :
    ∀ z ∈ s.path ++ [y], system.Avoids isTarget z := by
  intro z hz
  rcases List.mem_append.mp hz with hz | hz
  · exact h.avoids z hz
  · rw [List.mem_singleton.mp hz]
    exact .next (h.avoids x (mem_path_of_push hs)) (h.leads_next hs) ht

/-- A longer path takes nothing away from what has been tried. -/
theorem Tried.append {closed : Std.HashSet σ} {path : List σ} {i : Nat} {frame : Frame σ}
    (h : Tried system isTarget closed path i frame) (y : σ) :
    Tried system isTarget closed (path ++ [y]) i frame := by
  obtain ⟨tried, hnext, hne, hall⟩ := h
  refine ⟨tried, hnext, hne, fun z hz => ?_⟩
  rcases hall z hz with ht | hc | hp
  · exact .inl ht
  · exact .inr (.inl hc)
  · have hlt : i + 1 < path.length := (List.getElem?_eq_some_iff.mp hp).1
    exact .inr (.inr (by rw [List.getElem?_append_left hlt, hp]))

/-- A successor that satisfies the target, is closed or comes next may count as tried. -/
theorem Tried.consume {closed : Std.HashSet σ} {path : List σ} {i : Nat} {x y : σ} {rest : List σ}
    (h : Tried system isTarget closed path i ⟨x, y :: rest⟩)
    (hy : isTarget y = true ∨ y ∈ closed ∨ path[i + 1]? = some y) :
    Tried system isTarget closed path i ⟨x, rest⟩ := by
  obtain ⟨tried, hnext, hne, hall⟩ := h
  have hsplit : tried ++ y :: rest = tried ++ [y] ++ rest := by
    rw [List.append_assoc, List.singleton_append]
  refine ⟨tried ++ [y], hsplit ▸ hnext, hsplit ▸ hne, fun z hz => ?_⟩
  rcases List.mem_append.mp hz with hz | hz
  · exact hall z hz
  · rw [List.mem_singleton.mp hz]
    exact hy

/-- Skipping a successor that satisfies the target or is closed keeps the invariant. -/
theorem Invariant.skip {s : Search σ} (h : Invariant system isTarget s)
    {front : Array (Frame σ)} {x y : σ} {rest : List σ}
    (hs : s.stack = front.push ⟨x, y :: rest⟩) (hy : isTarget y = true ∨ y ∈ s.closed) (n : Nat) :
    Invariant system isTarget { s with stack := front.push ⟨x, rest⟩, iterations := n } := by
  have hpath : path { s with stack := front.push ⟨x, rest⟩, iterations := n } = s.path := by
    rw [path_of_push hs, path_of_push rfl]
  have hsize : (front.push ⟨x, rest⟩).size = s.stack.size := by
    rw [hs, Array.size_push, Array.size_push]
  refine
    { indexed := hpath.symm ▸ h.indexed
      first := hpath.symm ▸ h.first
      linked := hpath.symm ▸ h.linked
      avoids := hpath.symm ▸ h.avoids
      apart := hpath.symm ▸ h.apart
      seen := hpath.symm ▸ h.seen
      visited := hsize.symm ▸ h.visited
      closedAvoids := h.closedAvoids
      closedNext := h.closedNext
      closedInevitable := h.closedInevitable
      tried := ?_ }
  intro i frame hi
  rw [hpath]
  change (front.push ⟨x, rest⟩)[i]? = some frame at hi
  rw [Array.getElem?_push] at hi
  split at hi
  · rename_i heq
    rw [Option.some.injEq] at hi
    subst heq hi
    refine Tried.consume (h.tried _ _ (by rw [hs, Array.getElem?_push_size])) ?_
    exact hy.imp_right .inl
  · rename_i hne
    exact h.tried i frame (by rw [hs, Array.getElem?_push, if_neg hne, hi])

variable [LawfulBEq σ]

/-- When the last state of the path is closed, the states before it lose nothing. -/
theorem Tried.pop {closed : Std.HashSet σ} {front : List σ} {x : σ} {i : Nat} {frame : Frame σ}
    (h : Tried system isTarget closed (front ++ [x]) i frame) (hi : i < front.length) :
    Tried system isTarget (closed.insert x) front i frame := by
  obtain ⟨tried, hnext, hne, hall⟩ := h
  refine ⟨tried, hnext, hne, fun y hy => ?_⟩
  rw [Std.HashSet.mem_insert, beq_iff_eq]
  rcases hall y hy with ht | hc | hp
  · exact .inl ht
  · exact .inr (.inl (.inr hc))
  · by_cases hlt : i + 1 < front.length
    · rw [List.getElem?_append_left hlt] at hp
      exact .inr (.inr hp)
    -- The state that came next is the one that is closed now.
    · have hlast : i + 1 = front.length := by omega
      rw [hlast, List.getElem?_concat_length, Option.some.injEq] at hp
      exact .inr (.inl (.inl hp))

/-- Closing the last state of the path keeps the invariant. -/
theorem Invariant.close {s : Search σ} (h : Invariant system isTarget s)
    {front : Array (Frame σ)} {x : σ} (hs : s.stack = front.push ⟨x, []⟩) (n : Nat) :
    Invariant system isTarget
      { s with
        stack := front
        onStack := s.onStack.erase x
        closed := s.closed.insert x
        iterations := n } := by
  obtain ⟨tried, hnext, hne, htried⟩ := h.tried_last hs
  rw [List.append_nil] at hnext hne
  have hpath := path_of_push hs
  have hx := mem_path_of_push hs
  have hfront : ∀ y ∈ front.toList.map Frame.state, y ∈ s.path := by
    intro y hy
    rw [hpath]
    exact List.mem_append_left _ hy
  have hindexed : Indexed s.onStack (front.toList.map Frame.state ++ [x]) := hpath ▸ h.indexed
  have hlinked : (front.toList.map Frame.state ++ [x]).IsChain system.Leads := hpath ▸ h.linked
  have hinsert : ∀ y, y ∈ s.closed.insert x ↔ x = y ∨ y ∈ s.closed := by
    intro y
    rw [Std.HashSet.mem_insert, beq_iff_eq]
  have htargets : ∀ y, isTarget y = true ∨ y ∈ s.closed →
      isTarget y = true ∨ y ∈ s.closed.insert x :=
    fun y hy => hy.imp_right fun hc => (hinsert y).mpr (.inr hc)
  refine
    { indexed := hindexed.pop
      first := ?_
      linked := hlinked.left_of_append
      avoids := fun y hy => h.avoids y (hfront y hy)
      apart := ?_
      seen := ?_
      visited := ?_
      closedAvoids := ?_
      closedNext := ?_
      closedInevitable := ?_
      tried := ?_ }
  · intro y hy
    change (front.toList.map Frame.state).head? = some y at hy
    apply h.first
    rw [hpath, List.head?_append, hy, Option.some_or]
  · intro y hy hmem
    rcases (hinsert y).mp hmem with rfl | hc
    · exact hindexed.last_not_mem hy
    · exact h.apart y (hfront y hy) hc
  · rcases h.seen with hp | hc
    · rw [hpath, List.mem_append, List.mem_singleton] at hp
      rcases hp with hp | hp
      · exact .inl hp
      · exact .inr ((hinsert _).mpr (.inl hp.symm))
    · exact .inr ((hinsert _).mpr (.inr hc))
  · have hvisited := h.visited
    rw [hs, Array.size_push] at hvisited
    change s.stats.visited = front.size + (s.closed.insert x).size
    rw [Std.HashSet.size_insert, if_neg (h.apart x hx)]
    omega
  · intro y hy
    rcases (hinsert y).mp hy with rfl | hc
    · exact h.avoids x hx
    · exact h.closedAvoids y hc
  · intro y hy
    rcases (hinsert y).mp hy with rfl | hc
    · exact ⟨tried, hnext, hne, fun z hz => htargets z (htried z hz)⟩
    · obtain ⟨next, hn, hne', hall⟩ := h.closedNext y hc
      exact ⟨next, hn, hne', fun z hz => htargets z (hall z hz)⟩
  · intro y hy
    rcases (hinsert y).mp hy with rfl | hc
    -- No run is followed here: the successors were closed first, so the target is
    -- known to be inevitable from each of them.
    · refine .next hnext hne fun z hz => ?_
      rcases htried z hz with ht | hc
      · exact .here ht
      · exact h.closedInevitable z hc
    · exact h.closedInevitable y hc
  · intro i frame hi
    change front[i]? = some frame at hi
    have hlt : i < front.size := (Array.getElem?_eq_some_iff.mp hi).1
    have hi' : s.stack[i]? = some frame := by
      rw [hs, Array.getElem?_push, if_neg (by omega), hi]
    have hlen : i < (front.toList.map Frame.state).length := by
      rw [List.length_map, Array.length_toList]
      exact hlt
    exact (hpath ▸ h.tried i frame hi').pop hlen

/-- Entering a new state that has successors keeps the invariant. -/
theorem Invariant.enter {s : Search σ} (h : Invariant system isTarget s)
    {front : Array (Frame σ)} {x y : σ} {rest next : List σ}
    (hs : s.stack = front.push ⟨x, y :: rest⟩) (ht : isTarget y = false)
    (hon : s.onStack[y]? = none) (hc : y ∉ s.closed)
    (hnext : system.successors y = .ok next) (hne : next ≠ []) (expanded depth n : Nat) :
    Invariant system isTarget
      { s with
        stack := (front.push ⟨x, rest⟩).push ⟨y, next⟩
        onStack := s.onStack.insert y (front.size + 1)
        stats := ⟨expanded, s.stats.visited + 1, depth⟩
        iterations := n } := by
  have hpath : path
      { s with
        stack := (front.push ⟨x, rest⟩).push ⟨y, next⟩
        onStack := s.onStack.insert y (front.size + 1)
        stats := ⟨expanded, s.stats.visited + 1, depth⟩
        iterations := n } = s.path ++ [y] := by
    rw [path_of_push hs, path_of_push rfl]
    simp only [Array.toList_push, List.map_append, List.map_cons, List.map_nil]
  have hlen := path_length_of_push hs
  refine
    { indexed := ?_
      first := ?_
      linked := hpath.symm ▸ h.linked_next hs
      avoids := hpath.symm ▸ h.avoids_next hs ht
      apart := ?_
      seen := ?_
      visited := ?_
      closedAvoids := h.closedAvoids
      closedNext := h.closedNext
      closedInevitable := h.closedInevitable
      tried := ?_ }
  · rw [hpath]
    change Indexed (s.onStack.insert y (front.size + 1)) (s.path ++ [y])
    rw [← hlen]
    exact h.indexed.push (h.indexed.not_mem hon)
  · intro z hz
    rw [hpath, h.first_next hs, Option.some.injEq] at hz
    exact hz.symm
  · rw [hpath]
    intro z hz
    rcases List.mem_append.mp hz with hz | hz
    · exact h.apart z hz
    · rw [List.mem_singleton.mp hz]
      exact hc
  · rw [hpath]
    exact h.seen.imp_left (List.mem_append_left _)
  · have hvisited := h.visited
    rw [hs] at hvisited
    simp only [Array.size_push] at hvisited ⊢
    omega
  · intro i frame hi
    rw [hpath]
    change ((front.push ⟨x, rest⟩).push ⟨y, next⟩)[i]? = some frame at hi
    rw [Array.getElem?_push, Array.size_push] at hi
    split at hi
    · rw [Option.some.injEq] at hi
      subst hi
      exact ⟨[], hnext, hne, fun z hz => (List.not_mem_nil hz).elim⟩
    · rw [Array.getElem?_push] at hi
      split at hi
      · rename_i heq
        rw [Option.some.injEq] at hi
        subst heq hi
        refine Tried.consume ((h.tried _ _ (by rw [hs, Array.getElem?_push_size])).append y) ?_
        exact .inr (.inr (by rw [← hlen, List.getElem?_concat_length]))
      · rename_i hne
        exact (h.tried i frame (by rw [hs, Array.getElem?_push, if_neg hne, hi])).append y

/-- Every iteration that goes on keeps the invariant. -/
theorem step_invariant (s s' : Search σ) (h : Invariant system isTarget s)
    (hstep : step system isTarget limits polls s = .more s') : Invariant system isTarget s' := by
  cases (step_more hstep).2 with
  | close hs => exact h.close hs _
  | skip hs hy => exact h.skip hs hy _
  | enter hs ht hon hc _ hnext hne => exact h.enter hs ht hon hc hnext hne _ _ _

/-- The invariant holds when the first iteration begins. -/
theorem start_invariant {s : Search σ} (h : start system isTarget = .more s) :
    Invariant system isTarget s := by
  obtain ⟨ht, next, hnext, hne, rfl⟩ := start_more h
  refine
    { indexed := ?_
      first := ?_
      linked := List.isChain_singleton _
      avoids := ?_
      apart := fun _ _ => Std.HashSet.not_mem_empty
      seen := .inl List.mem_cons_self
      visited := by simp
      closedAvoids := fun _ hx => (Std.HashSet.not_mem_empty hx).elim
      closedNext := fun _ hx => (Std.HashSet.not_mem_empty hx).elim
      closedInevitable := fun _ hx => (Std.HashSet.not_mem_empty hx).elim
      tried := ?_ }
  · have hempty : Indexed (∅ : Std.HashMap σ Nat) [] := by
      intro x i
      simp only [Std.HashMap.getElem?_empty, List.getElem?_nil, reduceCtorEq]
    exact hempty.push List.not_mem_nil
  · intro x hx
    simpa only [path, List.map_cons, List.map_nil, List.head?_cons, Option.some.injEq,
      eq_comm] using hx
  · intro x hx
    rw [List.mem_singleton.mp hx]
    exact .initial ht
  · intro i frame hi
    cases i with
    | zero =>
      simp only [List.getElem?_toArray, List.getElem?_cons_zero, Option.some.injEq] at hi
      subst hi
      exact ⟨[], hnext, hne, fun y hy => (List.not_mem_nil hy).elim⟩
    | succ i => simp at hi

/-- No state has been entered twice. -/
theorem Invariant.nodup_held {s : Search σ} (h : Invariant system isTarget s) : s.held.Nodup := by
  have hclosed : s.closed.toList.Nodup :=
    Std.HashSet.distinct_toList.imp fun hne => by simpa only [beq_eq_false_iff_ne] using hne
  refine hclosed.append h.indexed.nodup fun x hc hp => ?_
  exact h.apart x hp (Std.HashSet.mem_toList.mp hc)

/-- Every state that has been entered avoids the target. -/
theorem Invariant.avoids_held {s : Search σ} (h : Invariant system isTarget s) :
    ∀ x ∈ s.held, system.Avoids isTarget x := by
  intro x hx
  rcases List.mem_append.mp hx with hc | hp
  · exact h.closedAvoids x (Std.HashSet.mem_toList.mp hc)
  · exact h.avoids x hp

/-- A state of the path joins the closed ones when it is closed. -/
theorem Invariant.toList_insert_perm {s : Search σ} (h : Invariant system isTarget s) {x : σ}
    (hx : x ∈ s.path) : (s.closed.insert x).toList.Perm (x :: s.closed.toList) := by
  have hinsert := Std.HashSet.toList_insert_perm (m := s.closed) (k := x)
  rwa [if_neg (h.apart x hx)] at hinsert

/-- A search ends before its first iteration, by an iteration from a state with the
invariant, or with its iterations used up. -/
theorem run_ends {rounds : Nat} {r : SearchResult σ ε}
    (h : run system isTarget limits polls rounds = r) :
    start system isTarget = .done r ∨
      (∃ s, Invariant system isTarget s ∧ Ending system isTarget limits polls s r) ∨
      r.verdict = .ok (.incomplete .iterationLimit) := by
  unfold run at h
  cases hstart : start system isTarget with
  | done result =>
    rw [hstart] at h
    exact .inl (by rw [← h])
  | more first =>
    simp only [hstart, Loop.rounds_eq_iterate] at h
    refine .inr ?_
    split at h
    · rename_i result hdone
      subst h
      obtain ⟨s, hs, hlast⟩ :=
        Loop.iterate_done_invariant step_invariant (start_invariant hstart) hdone
      exact .inl ⟨s, hs, step_done hlast⟩
    · exact .inr (by rw [← h])

end TapeReach.Search
