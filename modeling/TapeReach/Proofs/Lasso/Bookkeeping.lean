import Mathlib.Data.List.Chain
import TapeReach.Proofs.Lasso.Iterations
import TapeReach.Proofs.Lasso.Verdict

/-!
# The books of a search

A search keeps its path three times: as frames, as a map from states to
positions, and as a count. It also keeps the closed states, and with each frame
the successors still to be tried. What these say about each other is stated
here frame by frame, for whatever iteration the search has come to. The
iterations themselves are accounted for as well: each one was spent on a
successor that has been tried or on a state that has been closed.
-/

namespace TapeReach.Search

variable {σ ε : Type} [BEq σ] [Hashable σ]

/-- The search has come to `s` when `n` of its iterations are over. -/
def ComesTo (system : TransitionSystem σ ε) (isTarget : σ → Bool) (limits : Limits)
    (polls : Polls) (n : Nat) (s : Search σ) : Prop :=
  ∃ first, start system isTarget = .more first ∧
    Loop.iterate (step system isTarget limits polls) n first = .more s

/-- The frames, the map, the closed states and the counter agree with each other and with
the system. -/
structure Bookkeeping (system : TransitionSystem σ ε) (isTarget : σ → Bool) (s : Search σ) :
    Prop where
  /-- The map holds the states of the frames, each with the position of its frame, and
  nothing else. -/
  onStack : ∀ (x : σ) (i : Nat), s.onStack[x]? = some i ↔
    ∃ frame : Frame σ, s.stack[i]? = some frame ∧ frame.state = x
  /-- No two frames have the same state. -/
  distinct : ∀ (i j : Nat) (frame other : Frame σ), s.stack[i]? = some frame →
    s.stack[j]? = some other → frame.state = other.state → i = j
  /-- No frame has a state with the target. -/
  notTarget : ∀ frame ∈ s.stack, isTarget frame.state = false
  /-- The first frame has the initial state. -/
  first : ∀ frame : Frame σ, s.stack[0]? = some frame → frame.state = system.initial
  /-- The state of each frame leads to the state of the next. -/
  linked : ∀ (i : Nat) (frame next : Frame σ), s.stack[i]? = some frame →
    s.stack[i + 1]? = some next → system.Leads frame.state next.state
  /-- No state in the map is closed. -/
  disjoint : ∀ x ∈ s.onStack, x ∉ s.closed
  /-- The states visited are those of the frames and the closed ones. -/
  visited : s.stats.visited = s.stack.size + s.closed.size
  /-- A closed state has successors, and those without the target are closed. -/
  closed : ∀ x ∈ s.closed, ∃ next, system.successors x = .ok next ∧ next ≠ [] ∧
    ∀ y ∈ next, isTarget y = false → y ∈ s.closed
  /-- The state of a frame has successors. Those tried come before those pending, and a
  successor tried without the target is closed or has the next frame. -/
  consumed : ∀ (i : Nat) (frame : Frame σ), s.stack[i]? = some frame →
    ∃ tried, system.successors frame.state = .ok (tried ++ frame.pending) ∧
      tried ++ frame.pending ≠ [] ∧
      ∀ y ∈ tried, isTarget y = false →
        y ∈ s.closed ∨ ∃ next : Frame σ, s.stack[i + 1]? = some next ∧ next.state = y

variable {system : TransitionSystem σ ε} {isTarget : σ → Bool} {limits : Limits} {polls : Polls}

/-- The states of the path are those of the frames, position by position. -/
theorem getElem?_path_eq_some_iff {s : Search σ} {i : Nat} {x : σ} :
    s.path[i]? = some x ↔ ∃ frame : Frame σ, s.stack[i]? = some frame ∧ frame.state = x := by
  rw [path, List.getElem?_map, Array.getElem?_toList, Option.map_eq_some_iff]

/-- The state of a frame stands at its position on the path. -/
theorem getElem?_path {s : Search σ} {i : Nat} {frame : Frame σ} (h : s.stack[i]? = some frame) :
    s.path[i]? = some frame.state :=
  getElem?_path_eq_some_iff.mpr ⟨frame, h, rfl⟩

/-- The map holds the states of the path and no others. -/
theorem Indexed.mem_iff [LawfulBEq σ] {onStack : Std.HashMap σ Nat} {path : List σ}
    (h : Indexed onStack path) {x : σ} : x ∈ onStack ↔ x ∈ path := by
  rw [Std.HashMap.mem_iff_isSome_getElem?, Option.isSome_iff_exists, List.mem_iff_getElem?]
  exact exists_congr fun i => h x i

/-- The state of each frame leads to the state of the next. -/
theorem Invariant.leads {s : Search σ} (h : Invariant system isTarget s) {i : Nat}
    {frame next : Frame σ} (hframe : s.stack[i]? = some frame)
    (hnext : s.stack[i + 1]? = some next) : system.Leads frame.state next.state := by
  obtain ⟨hi, hstate⟩ := List.getElem?_eq_some_iff.mp (getElem?_path hframe)
  obtain ⟨hi', hstate'⟩ := List.getElem?_eq_some_iff.mp (getElem?_path hnext)
  rw [← hstate, ← hstate']
  exact h.linked.getElem i hi'

/-- Two frames with the same state are at the same position. -/
theorem Invariant.position_eq {s : Search σ} (h : Invariant system isTarget s) {i j : Nat}
    {frame other : Frame σ} (hframe : s.stack[i]? = some frame)
    (hother : s.stack[j]? = some other) (heq : frame.state = other.state) : i = j := by
  have hi := (h.indexed _ _).mpr (getElem?_path hframe)
  have hj := (h.indexed _ _).mpr (getElem?_path hother)
  rw [heq, hj, Option.some.injEq] at hi
  exact hi.symm

/-- What has been tried from a state of the path, said of its frame. -/
theorem Tried.consumed {s : Search σ} {i : Nat} {frame : Frame σ}
    (h : Tried system isTarget s.closed s.path i frame) :
    ∃ tried, system.successors frame.state = .ok (tried ++ frame.pending) ∧
      tried ++ frame.pending ≠ [] ∧
      ∀ y ∈ tried, isTarget y = false →
        y ∈ s.closed ∨ ∃ next : Frame σ, s.stack[i + 1]? = some next ∧ next.state = y := by
  obtain ⟨tried, hnext, hne, hall⟩ := h
  refine ⟨tried, hnext, hne, fun y hy ht => ?_⟩
  rcases hall y hy with htarget | hc | hp
  · rw [ht] at htarget
    cases htarget
  · exact .inl hc
  · exact .inr (getElem?_path_eq_some_iff.mp hp)

variable [LawfulBEq σ]

/-- With the invariant of a search its books agree. -/
theorem Invariant.bookkeeping {s : Search σ} (h : Invariant system isTarget s) :
    Bookkeeping system isTarget s where
  onStack x i := (h.indexed x i).trans getElem?_path_eq_some_iff
  distinct _ _ _ _ := h.position_eq
  notTarget frame hframe :=
    (h.avoids _ (List.mem_map_of_mem (Array.mem_toList_iff.mpr hframe))).not_target
  first frame hframe := by
    apply h.first
    rw [List.head?_eq_getElem?]
    exact getElem?_path hframe
  linked _ _ _ := h.leads
  disjoint x hx := h.apart x (h.indexed.mem_iff.mp hx)
  visited := h.visited
  closed x hx := by
    obtain ⟨next, hnext, hne, hall⟩ := h.closedNext x hx
    refine ⟨next, hnext, hne, fun y hy ht => (hall y hy).resolve_left ?_⟩
    rw [ht]
    exact Bool.false_ne_true
  consumed i frame hframe := (h.tried i frame hframe).consumed

/-- The invariant holds wherever a search has come to, and as many iterations are over as
its counter says. -/
theorem ComesTo.counted {n : Nat} {s : Search σ}
    (h : ComesTo system isTarget limits polls n s) :
    Counted system isTarget s ∧ s.iterations = n := by
  obtain ⟨first, hstart, hs⟩ := h
  have hzero : first.iterations = 0 := by
    obtain ⟨_, _, _, _, rfl⟩ := start_more hstart
    rfl
  have hcount := Loop.iterate_more_count step_iterations hs
  rw [hzero, Nat.zero_add] at hcount
  exact ⟨Loop.iterate_more_invariant step_counted (start_counted hstart) hs, hcount⟩

/-- Whatever iteration a search has come to, its books agree, and the iterations that are
over were spent on the closed states and on the successors tried. -/
theorem bookkeeping_of_comesTo {n : Nat} {s : Search σ}
    (h : ComesTo system isTarget limits polls n s) :
    Bookkeeping system isTarget s ∧ n = spent system s := by
  obtain ⟨hcounted, hn⟩ := h.counted
  exact ⟨hcounted.bookkeeping, hn.symm.trans hcounted.iterations⟩

/-- Four cannot be avoided when counting up. After six iterations three is closed, two has
tried it, and zero and one have each tried the next state of the path. -/
theorem counting_bookkeeping :
    ∃ s, ComesTo counting (· == 4) {} {} 6 s ∧
      s.stack = #[⟨0, [1]⟩, ⟨1, [2]⟩, ⟨2, [3]⟩] ∧ (∀ x, x ∈ s.closed ↔ 3 = x) ∧
      Bookkeeping counting (· == 4) s ∧ 6 = spent counting s := by
  have hs : ∃ s, ComesTo counting (· == 4) {} {} 6 s ∧
      s.stack = #[⟨0, [1]⟩, ⟨1, [2]⟩, ⟨2, [3]⟩] ∧ ∀ x, x ∈ s.closed ↔ 3 = x := by
    simp [ComesTo, counting, start, enter, Loop.iterate, step, consider, poll?, pollInterval,
      push, close, Limits.forbid?]
  obtain ⟨s, hs, hstack, hclosed⟩ := hs
  exact ⟨s, hs, hstack, hclosed, bookkeeping_of_comesTo hs⟩

end TapeReach.Search
