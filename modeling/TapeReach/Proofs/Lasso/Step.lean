import TapeReach.Lasso.Search

/-!
# What one iteration of a search can do

An iteration that goes on does one of three things: it closes the last state
of the path, it skips a successor that cannot extend the path, or it enters a
new state. An iteration that ends has met a limit, a failure, a lasso or the
end of the search. Both lists are complete and carry the conditions under
which each entry occurs, so that facts about whole searches need not open the
iteration again. The other way round, the conditions tell which iteration
comes next, and a search is followed iteration by iteration.
-/

namespace TapeReach.Search

variable {σ ε : Type} [BEq σ] [Hashable σ]

/-- How an iteration goes on from `s`. -/
inductive Advance (system : TransitionSystem σ ε) (isTarget : σ → Bool) (limits : Limits)
    (s : Search σ) : Search σ → Prop
  /-- The last state of the path has no successor left. -/
  | close {front : Array (Frame σ)} {x : σ} (hs : s.stack = front.push ⟨x, []⟩) :
      Advance system isTarget limits s
        { s with
          stack := front
          onStack := s.onStack.erase x
          closed := s.closed.insert x
          iterations := s.iterations + 1 }
  /-- The next successor satisfies the target or is closed. -/
  | skip {front : Array (Frame σ)} {x y : σ} {rest : List σ}
      (hs : s.stack = front.push ⟨x, y :: rest⟩) (hy : isTarget y = true ∨ y ∈ s.closed) :
      Advance system isTarget limits s
        { s with stack := front.push ⟨x, rest⟩, iterations := s.iterations + 1 }
  /-- The next successor is new and has successors itself. -/
  | enter {front : Array (Frame σ)} {x y : σ} {rest next : List σ}
      (hs : s.stack = front.push ⟨x, y :: rest⟩) (ht : isTarget y = false)
      (hon : s.onStack[y]? = none) (hc : y ∉ s.closed)
      (hf : limits.forbid? s.stats.visited = none)
      (hnext : system.successors y = .ok next) (hne : next ≠ []) :
      Advance system isTarget limits s
        { s with
          stack := (front.push ⟨x, rest⟩).push ⟨y, next⟩
          onStack := s.onStack.insert y (front.size + 1)
          stats := ⟨s.stats.expanded + 1, s.stats.visited + 1,
            max s.stats.maxDepth (front.size + 2)⟩
          iterations := s.iterations + 1 }

/-- How an iteration ends from `s`. -/
inductive Ending (system : TransitionSystem σ ε) (isTarget : σ → Bool) (limits : Limits)
    (polls : Polls) (s : Search σ) : SearchResult σ ε → Prop
  /-- A poll calls the search off. -/
  | polled {reason : StopReason} (hp : poll? limits polls s.iterations = some reason) :
      Ending system isTarget limits polls s ⟨.ok (.incomplete reason), s.stats⟩
  /-- The path is empty. -/
  | exhausted (hs : s.stack = #[]) :
      Ending system isTarget limits polls s ⟨.ok .unavoidable, s.stats⟩
  /-- The next successor is on the path. -/
  | cycle {front : Array (Frame σ)} {x y : σ} {rest : List σ} {i : Nat}
      (hs : s.stack = front.push ⟨x, y :: rest⟩) (ht : isTarget y = false)
      (hi : s.onStack[y]? = some i) :
      Ending system isTarget limits polls s
        ⟨.ok (.counterexample ⟨s.path.take i, s.path.drop i, .cycle⟩), s.stats⟩
  /-- The next successor is new, and one state too many. -/
  | limited {front : Array (Frame σ)} {x y : σ} {rest : List σ} {reason : StopReason}
      (hs : s.stack = front.push ⟨x, y :: rest⟩) (ht : isTarget y = false)
      (hon : s.onStack[y]? = none) (hc : y ∉ s.closed)
      (hf : limits.forbid? s.stats.visited = some reason) :
      Ending system isTarget limits polls s ⟨.ok (.incomplete reason), s.stats⟩
  /-- The next successor is new, and its successors are not known. -/
  | failed {front : Array (Frame σ)} {x y : σ} {rest : List σ} {e : ε}
      (hs : s.stack = front.push ⟨x, y :: rest⟩) (ht : isTarget y = false)
      (hon : s.onStack[y]? = none) (hc : y ∉ s.closed)
      (hf : limits.forbid? s.stats.visited = none) (he : system.successors y = .error e) :
      Ending system isTarget limits polls s
        ⟨.error e, { s.stats with visited := s.stats.visited + 1 }⟩
  /-- The next successor is new and has no successor. -/
  | deadEnd {front : Array (Frame σ)} {x y : σ} {rest : List σ}
      (hs : s.stack = front.push ⟨x, y :: rest⟩) (ht : isTarget y = false)
      (hon : s.onStack[y]? = none) (hc : y ∉ s.closed)
      (hf : limits.forbid? s.stats.visited = none) (hnext : system.successors y = .ok []) :
      Ending system isTarget limits polls s
        ⟨.ok (.counterexample ⟨s.path, [y], .deadEnd⟩),
          ⟨s.stats.expanded + 1, s.stats.visited + 1, s.stats.maxDepth⟩⟩

variable {system : TransitionSystem σ ε} {isTarget : σ → Bool} {limits : Limits} {polls : Polls}

/-- The path does not tell which successors have been tried. -/
theorem path_of_push {s : Search σ} {front : Array (Frame σ)} {x : σ} {pending : List σ}
    (hs : s.stack = front.push ⟨x, pending⟩) :
    s.path = front.toList.map Frame.state ++ [x] := by
  simp only [path, hs, Array.toList_push, List.map_append, List.map_cons, List.map_nil]

/-- A path stays the same when a successor of its last state is tried. -/
theorem path_eq_of_push {s s' : Search σ} {front : Array (Frame σ)} {x : σ}
    {pending pending' : List σ} (hs : s.stack = front.push ⟨x, pending⟩)
    (hs' : s'.stack = front.push ⟨x, pending'⟩) : s'.path = s.path := by
  rw [path_of_push hs, path_of_push hs']

/-- A state that is entered and goes on the path has successors. -/
theorem enter_more {s s' : Search σ} {y : σ} (h : enter system s y = .more s') :
    ∃ next, system.successors y = .ok next ∧ next ≠ [] ∧
      s' = { s with
        stack := s.stack.push ⟨y, next⟩
        onStack := s.onStack.insert y s.stack.size
        stats := ⟨s.stats.expanded + 1, s.stats.visited + 1,
          max s.stats.maxDepth (s.stack.size + 1)⟩ } := by
  unfold enter at h
  cases hn : system.successors y with
  | error e => simp only [hn, reduceCtorEq] at h
  | ok next =>
    simp only [hn] at h
    split at h
    · simp only [answer, reduceCtorEq] at h
    · rename_i hne
      simp only [push, Loop.Step.more.injEq] at h
      exact ⟨next, rfl, by simpa only [List.isEmpty_iff] using hne, h.symm⟩

/-- A state that is entered and ends the search has no successors, or none that are known. -/
theorem enter_done {s : Search σ} {y : σ} {r : SearchResult σ ε}
    (h : enter system s y = .done r) :
    (∃ e, system.successors y = .error e ∧
      r = ⟨.error e, { s.stats with visited := s.stats.visited + 1 }⟩) ∨
    (system.successors y = .ok [] ∧
      r = ⟨.ok (.counterexample ⟨s.path, [y], .deadEnd⟩),
        ⟨s.stats.expanded + 1, s.stats.visited + 1, s.stats.maxDepth⟩⟩) := by
  unfold enter at h
  cases hn : system.successors y with
  | error e =>
    simp only [hn, Loop.Step.done.injEq] at h
    exact .inl ⟨e, rfl, h.symm⟩
  | ok next =>
    simp only [hn] at h
    split at h
    · rename_i hnil
      simp only [answer, Loop.Step.done.injEq] at h
      rw [List.isEmpty_iff.mp hnil]
      exact .inr ⟨rfl, h.symm⟩
    · simp only [reduceCtorEq] at h

/-- A search that begins its iterations has put the initial state on the path. -/
theorem start_more {s : Search σ} (h : start system isTarget = .more s) :
    isTarget system.initial = false ∧ ∃ next, system.successors system.initial = .ok next ∧
      next ≠ [] ∧
      s = { stack := #[⟨system.initial, next⟩]
            onStack := (∅ : Std.HashMap σ Nat).insert system.initial 0
            stats := ⟨1, 1, 1⟩ } := by
  unfold start at h
  split at h
  · simp only [reduceCtorEq] at h
  · rename_i ht
    exact ⟨Bool.eq_false_iff.mpr ht, enter_more h⟩

/-- A search that ends before its iterations has found the target, a failure or a dead
end in the initial state. -/
theorem start_done {r : SearchResult σ ε} (h : start system isTarget = .done r) :
    (isTarget system.initial = true ∧ r = ⟨.ok .unavoidable, ⟨0, 1, 0⟩⟩) ∨
    (isTarget system.initial = false ∧
      ((∃ e, system.successors system.initial = .error e ∧ r = ⟨.error e, ⟨0, 1, 0⟩⟩) ∨
       (system.successors system.initial = .ok [] ∧
        r = ⟨.ok (.counterexample ⟨[], [system.initial], .deadEnd⟩), ⟨1, 1, 0⟩⟩))) := by
  unfold start at h
  split at h
  · rename_i ht
    rw [Loop.Step.done.injEq] at h
    exact .inl ⟨ht, h.symm⟩
  · rename_i ht
    exact .inr ⟨Bool.eq_false_iff.mpr ht, enter_done h⟩

/-- An iteration whose path is empty ends the search. -/
theorem step_empty {s : Search σ} (hp : poll? limits polls s.iterations = none)
    (hs : s.stack = #[]) :
    step system isTarget limits polls s = .done ⟨.ok .unavoidable, s.stats⟩ := by
  simp only [step, hp, hs, Array.back?_empty, answer]

/-- An iteration with no successor left closes the last state of the path. -/
theorem step_push_nil {s : Search σ} {front : Array (Frame σ)} {x : σ}
    (hp : poll? limits polls s.iterations = none) (hs : s.stack = front.push ⟨x, []⟩) :
    step system isTarget limits polls s = .more
      { s with
        stack := front
        onStack := s.onStack.erase x
        closed := s.closed.insert x
        iterations := s.iterations + 1 } := by
  simp only [step, hp, hs, Array.back?_push, close, Array.pop_push]

/-- An iteration with a successor left considers it. -/
theorem step_push_cons {s : Search σ} {front : Array (Frame σ)} {x y : σ} {rest : List σ}
    (hp : poll? limits polls s.iterations = none) (hs : s.stack = front.push ⟨x, y :: rest⟩) :
    step system isTarget limits polls s =
      consider system isTarget limits
        { s with stack := front.push ⟨x, rest⟩, iterations := s.iterations + 1 } y := by
  simp only [step, hp, hs, Array.back?_push, Array.pop_push]

/-- A state with successors that is entered goes on the path. -/
theorem enter_of_ne {s : Search σ} {y : σ} {next : List σ}
    (hnext : system.successors y = .ok next) (hne : next ≠ []) :
    enter system s y = .more
      { s with
        stack := s.stack.push ⟨y, next⟩
        onStack := s.onStack.insert y s.stack.size
        stats := ⟨s.stats.expanded + 1, s.stats.visited + 1,
          max s.stats.maxDepth (s.stack.size + 1)⟩ } := by
  rw [enter, hnext]
  exact if_neg fun hempty => hne (List.isEmpty_iff.mp hempty)

/-- A search from an initial state with successors, which is no target, begins with that
state on the path. -/
theorem start_of_ne {next : List σ} (ht : isTarget system.initial = false)
    (hnext : system.successors system.initial = .ok next) (hne : next ≠ []) :
    start system isTarget = .more
      { stack := #[].push ⟨system.initial, next⟩
        onStack := (∅ : Std.HashMap σ Nat).insert system.initial 0
        stats := ⟨1, 1, 1⟩ } := by
  rw [start, if_neg (Bool.eq_false_iff.mp ht), enter_of_ne hnext hne]
  rfl

/-- An iteration skips a successor that is a target. -/
theorem step_target {s : Search σ} {front : Array (Frame σ)} {x y : σ} {rest : List σ}
    (hp : poll? limits polls s.iterations = none) (hs : s.stack = front.push ⟨x, y :: rest⟩)
    (ht : isTarget y = true) :
    step system isTarget limits polls s = .more
      { s with stack := front.push ⟨x, rest⟩, iterations := s.iterations + 1 } := by
  rw [step_push_cons hp hs, consider, if_pos ht]

/-- An iteration ends at a successor that is on the path. -/
theorem step_cycle {s : Search σ} {front : Array (Frame σ)} {x y : σ} {rest : List σ} {i : Nat}
    (hp : poll? limits polls s.iterations = none) (hs : s.stack = front.push ⟨x, y :: rest⟩)
    (ht : isTarget y = false) (hi : s.onStack[y]? = some i) :
    step system isTarget limits polls s =
      .done ⟨.ok (.counterexample ⟨s.path.take i, s.path.drop i, .cycle⟩), s.stats⟩ := by
  rw [step_push_cons hp hs, consider, if_neg (Bool.eq_false_iff.mp ht)]
  simp only [hi, answer]
  rw [path_eq_of_push hs rfl]

/-- An iteration enters a successor that is neither a target nor known, unless that is one
state too many. -/
theorem step_fresh {s : Search σ} {front : Array (Frame σ)} {x y : σ} {rest : List σ}
    (hp : poll? limits polls s.iterations = none) (hs : s.stack = front.push ⟨x, y :: rest⟩)
    (ht : isTarget y = false) (hon : s.onStack[y]? = none) (hc : y ∉ s.closed)
    (hf : limits.forbid? s.stats.visited = none) :
    step system isTarget limits polls s =
      enter system { s with stack := front.push ⟨x, rest⟩, iterations := s.iterations + 1 } y := by
  rw [step_push_cons hp hs, consider, if_neg (Bool.eq_false_iff.mp ht)]
  simp only [hon, Std.HashSet.contains_iff_mem, hc, if_false, hf]

/-- A new successor with successors goes on the path. -/
theorem step_enter {s : Search σ} {front : Array (Frame σ)} {x y : σ} {rest next : List σ}
    (hp : poll? limits polls s.iterations = none) (hs : s.stack = front.push ⟨x, y :: rest⟩)
    (ht : isTarget y = false) (hon : s.onStack[y]? = none) (hc : y ∉ s.closed)
    (hf : limits.forbid? s.stats.visited = none) (hnext : system.successors y = .ok next)
    (hne : next ≠ []) :
    step system isTarget limits polls s = .more
      { s with
        stack := (front.push ⟨x, rest⟩).push ⟨y, next⟩
        onStack := s.onStack.insert y (front.size + 1)
        stats := ⟨s.stats.expanded + 1, s.stats.visited + 1,
          max s.stats.maxDepth (front.size + 2)⟩
        iterations := s.iterations + 1 } := by
  rw [step_fresh hp hs ht hon hc hf, enter_of_ne hnext hne]
  simp only [Array.size_push]

/-- A search fails at a new successor whose successors are not known. -/
theorem step_failed {s : Search σ} {front : Array (Frame σ)} {x y : σ} {rest : List σ} {e : ε}
    (hp : poll? limits polls s.iterations = none) (hs : s.stack = front.push ⟨x, y :: rest⟩)
    (ht : isTarget y = false) (hon : s.onStack[y]? = none) (hc : y ∉ s.closed)
    (hf : limits.forbid? s.stats.visited = none) (he : system.successors y = .error e) :
    step system isTarget limits polls s =
      .done ⟨.error e, { s.stats with visited := s.stats.visited + 1 }⟩ := by
  rw [step_fresh hp hs ht hon hc hf, enter, he]

/-- A new successor without successors is a dead end of the path. -/
theorem step_deadEnd {s : Search σ} {front : Array (Frame σ)} {x y : σ} {rest : List σ}
    (hp : poll? limits polls s.iterations = none) (hs : s.stack = front.push ⟨x, y :: rest⟩)
    (ht : isTarget y = false) (hon : s.onStack[y]? = none) (hc : y ∉ s.closed)
    (hf : limits.forbid? s.stats.visited = none) (hnext : system.successors y = .ok []) :
    step system isTarget limits polls s =
      .done ⟨.ok (.counterexample ⟨s.path, [y], .deadEnd⟩),
        ⟨s.stats.expanded + 1, s.stats.visited + 1, s.stats.maxDepth⟩⟩ := by
  rw [step_fresh hp hs ht hon hc hf, enter, hnext]
  simp only [List.isEmpty_nil, if_true, answer]
  rw [path_eq_of_push hs rfl]

/-- A stack is empty, or its last frame has been tried out, or it has a successor left. -/
theorem stack_cases {σ : Type} (stack : Array (Frame σ)) :
    stack = #[] ∨ (∃ (front : Array (Frame σ)) (x : σ), stack = front.push ⟨x, []⟩) ∨
      ∃ (front : Array (Frame σ)) (x y : σ) (rest : List σ),
        stack = front.push ⟨x, y :: rest⟩ := by
  cases hb : stack.back? with
  | none => exact .inl (Array.back?_eq_none_iff.mp hb)
  | some frame =>
    obtain ⟨front, hs⟩ := Array.back?_eq_some_iff.mp hb
    obtain ⟨x, pending⟩ := frame
    cases pending with
    | nil => exact .inr (.inl ⟨front, x, hs⟩)
    | cons y rest => exact .inr (.inr ⟨front, x, y, rest, hs⟩)

/-- An iteration that goes on was not called off, and does one of the three things. -/
theorem step_more {s s' : Search σ} (h : step system isTarget limits polls s = .more s') :
    poll? limits polls s.iterations = none ∧ Advance system isTarget limits s s' := by
  cases hp : poll? limits polls s.iterations with
  | some reason => simp only [step, hp, answer, reduceCtorEq] at h
  | none =>
    refine ⟨rfl, ?_⟩
    rcases stack_cases s.stack with hs | ⟨front, x, hs⟩ | ⟨front, x, y, rest, hs⟩
    · simp only [step_empty hp hs, reduceCtorEq] at h
    · rw [step_push_nil hp hs, Loop.Step.more.injEq] at h
      exact h ▸ .close hs
    · rw [step_push_cons hp hs] at h
      unfold consider at h
      split at h
      · rename_i ht
        rw [Loop.Step.more.injEq] at h
        exact h ▸ .skip hs (.inl ht)
      · rename_i ht
        split at h
        · simp only [answer, reduceCtorEq] at h
        · rename_i hon
          split at h
          · rename_i hc
            rw [Loop.Step.more.injEq] at h
            exact h ▸ .skip hs (.inr hc)
          · rename_i hc
            split at h
            · simp only [answer, reduceCtorEq] at h
            · rename_i hf
              obtain ⟨next, hnext, hne, rfl⟩ := enter_more h
              simp only [Array.size_push]
              exact .enter hs (Bool.eq_false_iff.mpr ht) hon hc hf hnext hne

/-- An iteration that ends does so in one of the six ways. -/
theorem step_done {s : Search σ} {r : SearchResult σ ε}
    (h : step system isTarget limits polls s = .done r) :
    Ending system isTarget limits polls s r := by
  cases hp : poll? limits polls s.iterations with
  | some reason =>
    simp only [step, hp, answer, Loop.Step.done.injEq] at h
    exact h ▸ .polled hp
  | none =>
    rcases stack_cases s.stack with hs | ⟨front, x, hs⟩ | ⟨front, x, y, rest, hs⟩
    · rw [step_empty hp hs, Loop.Step.done.injEq] at h
      exact h ▸ .exhausted hs
    · simp only [step_push_nil hp hs, reduceCtorEq] at h
    · have hpath : path { s with stack := front.push ⟨x, rest⟩, iterations := s.iterations + 1 } =
          s.path := path_eq_of_push hs rfl
      rw [step_push_cons hp hs] at h
      unfold consider at h
      split at h
      · simp only [reduceCtorEq] at h
      · rename_i ht
        have ht := Bool.eq_false_iff.mpr ht
        split at h
        · rename_i i hi
          simp only [answer, Loop.Step.done.injEq, hpath] at h
          exact h ▸ .cycle hs ht hi
        · rename_i hon
          split at h
          · simp only [reduceCtorEq] at h
          · rename_i hc
            split at h
            · rename_i reason hf
              simp only [answer, Loop.Step.done.injEq] at h
              exact h ▸ .limited hs ht hon hc hf
            · rename_i hf
              rcases enter_done h with ⟨e, he, rfl⟩ | ⟨hnext, rfl⟩
              · exact .failed hs ht hon hc hf he
              · rw [hpath]
                exact .deadEnd hs ht hon hc hf hnext

/-- Iterations are counted one by one. -/
theorem step_iterations (s s' : Search σ) (h : step system isTarget limits polls s = .more s') :
    s'.iterations = s.iterations + 1 := by
  cases (step_more h).2 <;> rfl

end TapeReach.Search
