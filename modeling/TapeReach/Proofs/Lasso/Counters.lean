import TapeReach.Proofs.Lasso.Verdict

/-!
# What the counters of a search mean

The states whose successors a search computes are listed in the order in which
it comes to them. The search depends on the successors of these states only;
none of them is listed twice, and there are as many as the counters of visited
and of expanded states say. The longest path is no longer than the list, and a
lasso is no longer than the longest path, but for the state of a dead end, which
does not join the path. A search that ends without a lasso has visited every
state that avoids the target.
-/

namespace TapeReach.Search

variable {σ ε : Type} [BEq σ] [Hashable σ]

/-- The state whose successors an iteration from `s` computes, if it comes to that. -/
def expands? (isTarget : σ → Bool) (limits : Limits) (polls : Polls) (s : Search σ) : Option σ :=
  match poll? limits polls s.iterations, s.stack.back? with
  | none, some ⟨_, next :: _⟩ =>
    if isTarget next || s.onStack[next]?.isSome || s.closed.contains next ||
        (limits.forbid? s.stats.visited).isSome then none
    else some next
  | _, _ => none

/-- The states whose successors at most `n` iterations from `s` compute, in order. -/
def expansions (system : TransitionSystem σ ε) (isTarget : σ → Bool) (limits : Limits)
    (polls : Polls) : Nat → Search σ → List σ
  | 0, _ => []
  | n + 1, s =>
    (expands? isTarget limits polls s).toList ++
      match step system isTarget limits polls s with
      | .more s => expansions system isTarget limits polls n s
      | .done _ => []

/-- The states whose successors a search computes, in order. -/
def trace (system : TransitionSystem σ ε) (isTarget : σ → Bool) (limits : Limits) (polls : Polls)
    (rounds : Nat) : List σ :=
  if isTarget system.initial then []
  else
    system.initial ::
      match start system isTarget with
      | .more s => expansions system isTarget limits polls (2 ^ rounds - 1) s
      | .done _ => []

/-- What the counters of a search say about the states whose successors it has computed. -/
structure Tally (trace : List σ) (stats : SearchStats) : Prop where
  /-- Every state visited has been expanded. -/
  expanded : stats.expanded = stats.visited
  /-- The states expanded are as many as the counter says. -/
  counted : trace.length = stats.expanded
  /-- No state is expanded twice. -/
  distinct : trace.Nodup
  /-- No path was longer than there are states. -/
  depth : stats.maxDepth ≤ stats.visited

/-- What the counters of a search outside the target say about its answer. -/
structure Accounts (system : TransitionSystem σ ε) (isTarget : σ → Bool) (trace : List σ)
    (verdict : Verdict σ) (stats : SearchStats) : Prop extends Tally trace stats where
  /-- A cycle is no longer than the longest path. -/
  cycle : ∀ lasso, verdict = .counterexample lasso → lasso.kind = .cycle →
    lasso.length ≤ stats.maxDepth
  /-- A dead end is one state longer than the longest path at most. -/
  deadEnd : ∀ lasso, verdict = .counterexample lasso → lasso.kind = .deadEnd →
    lasso.length ≤ stats.maxDepth + 1
  /-- Every state that avoids an unavoidable target has been visited. -/
  unavoidable : verdict = .unavoidable →
    {x | system.Avoids isTarget x}.encard = stats.visited

/-- The invariant of a search together with what its counters say. -/
structure Tallied (system : TransitionSystem σ ε) (isTarget : σ → Bool) (s : Search σ) :
    Prop extends Invariant system isTarget s where
  /-- Every state visited has been expanded. -/
  expanded : s.stats.expanded = s.stats.visited
  /-- No path was longer than there are states. -/
  depth : s.stats.maxDepth ≤ s.stats.visited
  /-- The path is one of those that the depth counts. -/
  path : s.path.length ≤ s.stats.maxDepth

variable {system other : TransitionSystem σ ε} {isTarget : σ → Bool} {limits : Limits}
  {polls : Polls}

section Expansion

variable {s : Search σ} {front : Array (Frame σ)} {x y : σ} {rest : List σ}
  {verdict : Verdict σ} {r : SearchResult σ ε}

/-- An iteration with a successor left expands it unless that is a target state or known, or
the limits forbid it. -/
theorem expands?_push (hp : poll? limits polls s.iterations = none)
    (hs : s.stack = front.push ⟨x, y :: rest⟩) :
    expands? isTarget limits polls s =
      if isTarget y || s.onStack[y]?.isSome || s.closed.contains y ||
        (limits.forbid? s.stats.visited).isSome then none else some y := by
  simp only [expands?, hp, hs, Array.back?_push]

/-- A successor that is new and allowed is expanded. -/
theorem expands?_of_new (hp : poll? limits polls s.iterations = none)
    (hs : s.stack = front.push ⟨x, y :: rest⟩) (ht : isTarget y = false)
    (hon : s.onStack[y]? = none) (hc : y ∉ s.closed)
    (hf : limits.forbid? s.stats.visited = none) :
    expands? isTarget limits polls s = some y := by
  have hclosed : s.closed.contains y = false := Bool.eq_false_iff.mpr hc
  rw [expands?_push hp hs, ht, hon, hclosed, hf]
  rfl

/-- An iteration that closes a state expands none. -/
theorem expands?_push_nil (hs : s.stack = front.push ⟨x, []⟩) :
    expands? isTarget limits polls s = none := by
  unfold expands?
  rw [hs, Array.back?_push]
  split
  · rename_i heq
    cases heq
  · rfl

/-- A successor that satisfies the target or is known is not expanded, and no successor is
when the limits forbid it. -/
theorem expands?_of_known (hs : s.stack = front.push ⟨x, y :: rest⟩)
    (hy : isTarget y = true ∨ s.onStack[y]?.isSome = true ∨ y ∈ s.closed ∨
      (limits.forbid? s.stats.visited).isSome = true) :
    expands? isTarget limits polls s = none := by
  cases hp : poll? limits polls s.iterations with
  | some reason => simp only [expands?, hp]
  | none =>
    rw [expands?_push hp hs, if_pos]
    simp only [Bool.or_eq_true, or_assoc]
    exact hy

/-- An iteration that ends a search has expanded no state, or a new one that it has counted. -/
theorem expands?_of_done (hstep : step system isTarget limits polls s = .done r)
    (hok : r.verdict = .ok verdict) :
    (expands? isTarget limits polls s = none ∧ r.stats = s.stats) ∨
      ∃ y, expands? isTarget limits polls s = some y ∧ s.onStack[y]? = none ∧ y ∉ s.closed ∧
        r.stats = ⟨s.stats.expanded + 1, s.stats.visited + 1, s.stats.maxDepth⟩ := by
  cases hp : poll? limits polls s.iterations with
  | some reason =>
    simp only [step, hp, answer, Loop.Step.done.injEq] at hstep
    refine .inl ⟨?_, by rw [← hstep]⟩
    simp only [expands?, hp]
  | none =>
    cases step_done hstep with
    | polled hreason =>
      rw [hp] at hreason
      cases hreason
    | exhausted hs =>
      refine .inl ⟨?_, rfl⟩
      simp only [expands?, hp, hs, Array.back?_empty]
    | cycle hs _ hi => exact .inl ⟨expands?_of_known hs (.inr (.inl (by rw [hi]; rfl))), rfl⟩
    | limited hs _ _ _ hf =>
      exact .inl ⟨expands?_of_known hs (.inr (.inr (.inr (by rw [hf]; rfl)))), rfl⟩
    | failed => cases hok
    | @deadEnd _ _ y _ hs ht hon hc hf _ =>
      exact .inr ⟨y, expands?_of_new hp hs ht hon hc hf, hon, hc, rfl⟩

/-- Entering a state depends on its own successors only. -/
theorem enter_congr (s : Search σ) (h : other.successors y = system.successors y) :
    enter other s y = enter system s y := by
  simp only [enter, h]

/-- An iteration depends on the successors of the state that it expands only. -/
theorem step_congr
    (h : ∀ x, expands? isTarget limits polls s = some x →
      other.successors x = system.successors x) :
    step other isTarget limits polls s = step system isTarget limits polls s := by
  cases hp : poll? limits polls s.iterations with
  | some reason => simp only [step, hp]
  | none =>
    rcases stack_cases s.stack with hs | ⟨front, x, hs⟩ | ⟨front, x, y, rest, hs⟩
    · rw [step_empty hp hs, step_empty hp hs]
    · rw [step_push_nil hp hs, step_push_nil hp hs]
    · rw [step_push_cons hp hs, step_push_cons hp hs]
      unfold consider
      split
      · rfl
      · rename_i ht
        split
        · rfl
        · rename_i hon
          split
          · rfl
          · rename_i hc
            split
            · rfl
            · rename_i hf
              exact enter_congr _ (h y (expands?_of_new hp hs (Bool.eq_false_iff.mpr ht) hon hc hf))

/-- Iterations depend on the successors of the states that they expand only. -/
theorem iterate_congr {n : Nat}
    (h : ∀ x ∈ expansions system isTarget limits polls n s,
      other.successors x = system.successors x) :
    Loop.iterate (step other isTarget limits polls) n s =
      Loop.iterate (step system isTarget limits polls) n s := by
  induction n generalizing s with
  | zero => rfl
  | succ n ih =>
    have hstep : step other isTarget limits polls s = step system isTarget limits polls s :=
      step_congr fun x hx => h x (List.mem_append_left _ (by rw [hx]; exact List.mem_cons_self))
    rw [Loop.iterate, Loop.iterate, hstep]
    cases hnext : step system isTarget limits polls s with
    | done r => rfl
    | more t =>
      refine ih fun x hx => h x (List.mem_append_right _ ?_)
      rw [hnext]
      exact hx

end Expansion

/-- A search depends on the successors of the states of its trace only. -/
theorem run_congr {rounds : Nat} (hinitial : other.initial = system.initial)
    (h : ∀ x ∈ trace system isTarget limits polls rounds,
      other.successors x = system.successors x) :
    run other isTarget limits polls rounds = run system isTarget limits polls rounds := by
  unfold trace at h
  split at h
  · rename_i ht
    simp only [run, start, hinitial, ht, if_true]
  · rename_i ht
    have hstart : start other isTarget = start system isTarget := by
      rw [start, start, hinitial, if_neg ht, if_neg ht]
      exact enter_congr _ (h _ List.mem_cons_self)
    rw [run, run, hstart]
    cases hfirst : start system isTarget with
    | done r => rfl
    | more first =>
      simp only [hfirst] at h
      simp only [Loop.rounds_eq_iterate, Nat.mul_one]
      rw [iterate_congr fun x hx => h x (List.mem_cons_of_mem _ hx)]

/-- The path has one state for each frame. -/
theorem length_path (s : Search σ) : s.path.length = s.stack.size := by
  rw [path, List.length_map, Array.length_toList]

/-- A cycle is no longer than the longest path, and a dead end one state longer at most. -/
theorem Tallied.length_le {s : Search σ} {r : SearchResult σ ε} (h : Tallied system isTarget s)
    (hend : Ending system isTarget limits polls s r) {lasso : Lasso σ}
    (hlasso : r.verdict = .ok (.counterexample lasso)) :
    (lasso.kind = .cycle → lasso.length ≤ r.stats.maxDepth) ∧
      (lasso.kind = .deadEnd → lasso.length ≤ r.stats.maxDepth + 1) := by
  have hpath := h.path
  cases hend with
  | polled => cases hlasso
  | exhausted => cases hlasso
  | limited => cases hlasso
  | failed => cases hlasso
  | @cycle _ _ _ _ i =>
    cases hlasso
    refine ⟨fun _ => ?_, nofun⟩
    rw [Lasso.length, ← List.length_append, List.take_append_drop]
    exact hpath
  | deadEnd =>
    cases hlasso
    exact ⟨nofun, fun _ => Nat.succ_le_succ hpath⟩

/-- When the first iteration begins the initial state has been entered. -/
theorem held_of_start {s : Search σ} (h : start system isTarget = .more s) :
    s.held = [system.initial] := by
  obtain ⟨_, next, _, _, rfl⟩ := start_more h
  simp only [held, path, Std.HashSet.toList_empty, List.nil_append, List.map_cons, List.map_nil]

variable [LawfulBEq σ]

section Tallied

variable {s t : Search σ}

/-- The counters agree with the states when the first iteration begins. -/
theorem start_tallied (h : start system isTarget = .more s) : Tallied system isTarget s := by
  refine ⟨start_invariant h, ?_, ?_, ?_⟩ <;>
    obtain ⟨_, next, _, _, rfl⟩ := start_more h
  · rfl
  · exact Nat.le_refl 1
  · exact Nat.le_refl 1

/-- Every iteration that goes on keeps the counters in agreement. -/
theorem step_tallied (s t : Search σ) (h : Tallied system isTarget s)
    (hstep : step system isTarget limits polls s = .more t) : Tallied system isTarget t := by
  have hinvariant := step_invariant s t h.toInvariant hstep
  have hexpanded := h.expanded
  have hdepth := h.depth
  have hpath := h.path
  have hvisited := h.visited
  rw [length_path] at hpath
  cases (step_more hstep).2 with
  | close hs =>
    rw [hs, Array.size_push] at hpath
    refine ⟨hinvariant, hexpanded, hdepth, ?_⟩
    rw [length_path]
    dsimp only
    omega
  | skip hs _ =>
    rw [hs, Array.size_push] at hpath
    refine ⟨hinvariant, hexpanded, hdepth, ?_⟩
    rw [length_path]
    simpa only [Array.size_push] using hpath
  | enter hs _ _ _ _ _ _ =>
    rw [hs, Array.size_push] at hpath hvisited
    refine ⟨hinvariant, ?_, ?_, ?_⟩
    · dsimp only
      omega
    -- The longer path counts, but all its states have been visited.
    · dsimp only
      omega
    · rw [length_path]
      simp only [Array.size_push]
      omega

/-- What an iteration expands joins the states that have been entered. -/
theorem held_perm_of_step (h : Invariant system isTarget s)
    (hstep : step system isTarget limits polls s = .more t) :
    t.held.Perm ((expands? isTarget limits polls s).toList ++ s.held) := by
  obtain ⟨hp, hadvance⟩ := step_more hstep
  cases hadvance with
  | @close front x hs =>
    have hinsert := h.toList_insert_perm (mem_path_of_push hs)
    rw [expands?_push_nil hs, Option.toList_none, List.nil_append]
    change ((s.closed.insert x).toList ++ front.toList.map Frame.state).Perm s.held
    rw [held, path_of_push hs, ← List.append_assoc]
    exact (hinsert.append_right _).trans (List.perm_append_singleton x _).symm
  | @skip front x y rest hs hy =>
    rw [expands?_of_known hs (hy.imp_right fun hc => .inr (.inl hc)), Option.toList_none,
      List.nil_append, held, held, path_of_push hs, path_of_push rfl]
  | @enter front x y rest next hs ht hon hc hf _ _ =>
    rw [expands?_of_new hp hs ht hon hc hf, Option.toList_some]
    refine List.Perm.trans (List.Perm.of_eq ?_) (List.perm_append_singleton y s.held)
    rw [held, held, path_of_push hs, path_of_push rfl, List.append_assoc]
    simp only [Array.toList_push, List.map_append, List.map_cons, List.map_nil]

/-- A loop leaves off in a state in which the counters agree: it goes on from there, or it ends
with one more iteration. What it has expanded has joined the states that were entered before. -/
theorem exists_last (limits : Limits) (polls : Polls) (n : Nat) (h : Tallied system isTarget s) :
    ∃ t, Tallied system isTarget t ∧
      ((Loop.iterate (step system isTarget limits polls) n s = .more t ∧
          (expansions system isTarget limits polls n s ++ s.held).Perm t.held) ∨
        ∃ r, Loop.iterate (step system isTarget limits polls) n s = .done r ∧
          step system isTarget limits polls t = .done r ∧
          (expansions system isTarget limits polls n s ++ s.held).Perm
            ((expands? isTarget limits polls t).toList ++ t.held)) := by
  induction n generalizing s with
  | zero => exact ⟨s, h, .inl ⟨rfl, .refl _⟩⟩
  | succ n ih =>
    rw [Loop.iterate, expansions]
    cases hstep : step system isTarget limits polls s with
    | done r =>
      refine ⟨s, h, .inr ⟨r, rfl, hstep, ?_⟩⟩
      rw [List.append_nil]
    | more u =>
      obtain ⟨t, ht, hlast⟩ := ih (step_tallied s u h hstep)
      have hperm : ((expands? isTarget limits polls s).toList ++
          expansions system isTarget limits polls n u ++ s.held).Perm
          (expansions system isTarget limits polls n u ++ u.held) := by
        have hheld := held_perm_of_step h.toInvariant hstep
        refine (List.perm_append_comm.append_right _).trans ?_
        rw [List.append_assoc]
        exact hheld.symm.append_left _
      exact ⟨t, ht, hlast.imp (And.imp_right hperm.trans)
        (Exists.imp fun r => And.imp_right (And.imp_right hperm.trans))⟩

end Tallied

section Result

variable {s : Search σ} {xs : List σ} {verdict : Verdict σ} {r : SearchResult σ ε}

/-- There are as many states entered as visited. -/
theorem Invariant.length_held (h : Invariant system isTarget s) :
    s.held.length = s.stats.visited := by
  rw [held, List.length_append, length_path, Std.HashSet.length_toList, h.visited, Nat.add_comm]

/-- Between two iterations the counters say what they should. -/
theorem Tallied.tally (h : Tallied system isTarget s) (hperm : xs.Perm s.held) :
    Tally xs s.stats where
  expanded := h.expanded
  counted := by rw [hperm.length_eq, h.length_held, h.expanded]
  distinct := hperm.nodup_iff.mpr h.nodup_held
  depth := h.depth

/-- At the end of a search the counters say what they should. -/
theorem Tallied.tally_of_done (h : Tallied system isTarget s)
    (hstep : step system isTarget limits polls s = .done r) (hok : r.verdict = .ok verdict)
    (hperm : xs.Perm ((expands? isTarget limits polls s).toList ++ s.held)) :
    Tally xs r.stats := by
  rcases expands?_of_done hstep hok with ⟨hnone, hstats⟩ | ⟨y, hsome, hon, hc, hstats⟩
  · rw [hnone, Option.toList_none, List.nil_append] at hperm
    rw [hstats]
    exact h.tally hperm
  · rw [hsome, Option.toList_some, List.singleton_append] at hperm
    have hnew : y ∉ s.held := by
      intro hy
      rcases List.mem_append.mp hy with hy | hy
      · exact hc (Std.HashSet.mem_toList.mp hy)
      · exact h.indexed.not_mem hon hy
    have hdepth := h.depth
    have hexpanded := h.expanded
    have hlength := hperm.length_eq
    rw [List.length_cons, h.length_held] at hlength
    rw [hstats]
    exact
      { expanded := by rw [hexpanded]
        counted := by rw [hlength, hexpanded]
        distinct := hperm.nodup_iff.mpr (List.nodup_cons.mpr ⟨hnew, h.nodup_held⟩)
        depth := Nat.le_succ_of_le hdepth }

/-- A search that ends without a lasso has visited every state that avoids the target. -/
theorem Invariant.encard_avoids (h : Invariant system isTarget s)
    (hend : Ending system isTarget limits polls s r) (hok : r.verdict = .ok .unavoidable) :
    {x | system.Avoids isTarget x}.encard = r.stats.visited := by
  cases hend with
  | polled => cases hok
  | cycle => cases hok
  | limited => cases hok
  | failed => cases hok
  | deadEnd => cases hok
  | exhausted hs =>
    have hpath : s.path = [] := by rw [path, hs]; rfl
    have hclosed : ∀ x, system.Avoids isTarget x → x ∈ s.closed := by
      intro x hx
      induction hx with
      | initial _ =>
        refine h.seen.resolve_left ?_
        rw [hpath]
        exact List.not_mem_nil
      | next _ hst ht ih =>
        obtain ⟨next, hnext, hmem⟩ := hst
        obtain ⟨next', hnext', _, hall⟩ := h.closedNext _ ih
        rw [hnext] at hnext'
        cases hnext'
        refine (hall _ hmem).resolve_left ?_
        rw [ht]
        exact Bool.false_ne_true
    have hset : {x | system.Avoids isTarget x} = {x | x ∈ s.held} := by
      refine Set.ext fun x => ⟨fun hx => ?_, h.avoids_held x⟩
      exact List.mem_append_left _ (Std.HashSet.mem_toList.mpr (hclosed x hx))
    rw [hset, encard_setOf_mem h.nodup_held, h.length_held]

/-- At the end of a search the counters say what they should about the answer. -/
theorem Tallied.accounts (h : Tallied system isTarget s)
    (hstep : step system isTarget limits polls s = .done r) (hok : r.verdict = .ok verdict)
    (hperm : xs.Perm ((expands? isTarget limits polls s).toList ++ s.held)) :
    Accounts system isTarget xs verdict r.stats where
  toTally := h.tally_of_done hstep hok hperm
  cycle _ hlasso := (h.length_le (step_done hstep) (hlasso ▸ hok)).1
  deadEnd _ hlasso := (h.length_le (step_done hstep) (hlasso ▸ hok)).2
  unavoidable hverdict := h.encard_avoids (step_done hstep) (hverdict ▸ hok)

end Result

variable {rounds : Nat} {verdict : Verdict σ} {result : SearchResult σ ε}

/-- A search outside the target finds a dead end at once, or it leaves off in a state in which
the counters agree, and its trace is made of the states that have been entered by then. -/
theorem run_leaves_off (ht : isTarget system.initial = false)
    (hrun : run system isTarget limits polls rounds = result) (hok : result.verdict = .ok verdict) :
    (result = ⟨.ok (.counterexample ⟨[], [system.initial], .deadEnd⟩), ⟨1, 1, 0⟩⟩ ∧
      trace system isTarget limits polls rounds = [system.initial]) ∨
    ∃ t, Tallied system isTarget t ∧
      ((result = ⟨.ok (.incomplete .iterationLimit), t.stats⟩ ∧
          (trace system isTarget limits polls rounds).Perm t.held) ∨
        (step system isTarget limits polls t = .done result ∧
          (trace system isTarget limits polls rounds).Perm
            ((expands? isTarget limits polls t).toList ++ t.held))) := by
  unfold trace
  rw [if_neg (Bool.eq_false_iff.mp ht)]
  cases hstart : start system isTarget with
  | done r =>
    simp only [run, hstart] at hrun
    subst hrun
    rcases start_done hstart with ⟨ht', _⟩ | ⟨_, ⟨e, _, hr⟩ | ⟨_, hr⟩⟩
    · rw [ht] at ht'
      cases ht'
    · rw [hr] at hok
      cases hok
    · exact .inl ⟨hr, rfl⟩
  | more first =>
    obtain ⟨t, htallied, hlast⟩ :=
      exists_last limits polls (2 ^ rounds - 1) (start_tallied hstart)
    rw [held_of_start hstart] at hlast
    have hcons := (List.perm_append_singleton system.initial
      (expansions system isTarget limits polls (2 ^ rounds - 1) first)).symm
    simp only [run, hstart, Loop.rounds_eq_iterate, Nat.mul_one] at hrun
    refine .inr ⟨t, htallied, ?_⟩
    rcases hlast with ⟨hmore, hperm⟩ | ⟨r, hdone, hstep, hperm⟩
    · rw [hmore] at hrun
      exact .inl ⟨hrun.symm, hcons.trans hperm⟩
    · rw [hdone] at hrun
      subst hrun
      exact .inr ⟨hstep, hcons.trans hperm⟩

/-- The counters of a search outside the target say what they should about its answer. -/
theorem run_accounts (ht : isTarget system.initial = false)
    (hrun : run system isTarget limits polls rounds = result) (hok : result.verdict = .ok verdict) :
    Accounts system isTarget (trace system isTarget limits polls rounds) verdict result.stats := by
  rcases run_leaves_off ht hrun hok with ⟨hr, htrace⟩ | ⟨t, h, ⟨hr, hperm⟩ | ⟨hstep, hperm⟩⟩
  · rw [hr] at hok
    cases hok
    rw [hr, htrace]
    exact
      { expanded := rfl
        counted := rfl
        distinct := List.nodup_singleton _
        depth := Nat.zero_le 1
        cycle := fun _ hlasso hkind => by cases hlasso; cases hkind
        deadEnd := fun _ hlasso _ => by cases hlasso; exact Nat.le_refl 1
        unavoidable := nofun }
  · rw [hr] at hok
    cases hok
    rw [hr]
    exact
      { toTally := h.tally hperm
        cycle := nofun
        deadEnd := nofun
        unavoidable := nofun }
  · exact h.accounts hstep hok hperm

/-- What the counters of a search mean, whatever its limits. If the initial state satisfies the
target, it is the only state visited and none is expanded. Otherwise the states expanded are as
many as those visited, and none is expanded twice; no path was longer than that; a cycle is no
longer than the longest path and a dead end one state longer at most; and if the target is
unavoidable, the states visited are all that avoid it. The trace, which lists the states that
are expanded, is complete: every system with the same successors in these states is searched
alike. -/
theorem run_counters (hrun : run system isTarget limits polls rounds = result)
    (hok : result.verdict = .ok verdict) :
    (isTarget system.initial = true → result.stats = ⟨0, 1, 0⟩) ∧
    (isTarget system.initial = false →
      Accounts system isTarget (trace system isTarget limits polls rounds) verdict result.stats) ∧
    ∀ other : TransitionSystem σ ε, other.initial = system.initial →
      (∀ x ∈ trace system isTarget limits polls rounds,
        other.successors x = system.successors x) →
      run other isTarget limits polls rounds = result := by
  refine ⟨fun ht => ?_, fun ht => run_accounts ht hrun hok, fun other hinitial hsame => ?_⟩
  · simp only [run, start, ht, if_true] at hrun
    rw [← hrun]
  · rw [run_congr hinitial hsame, hrun]

/-- Counting up to two expands two numbers, each once although one is listed twice, and these are
all that avoid two; and the lasso that returns to one is as long as the path that found it. -/
theorem counting_counters :
    run counting (· == 2) {} {} 3 = ⟨.ok .unavoidable, ⟨2, 2, 2⟩⟩ ∧
      (trace counting (· == 2) {} {} 3).length = 2 ∧ (trace counting (· == 2) {} {} 3).Nodup ∧
      {x | counting.Avoids (· == 2) x}.encard = (2 : Nat) ∧
      run returning (· == 7) {} {} 2 =
        ⟨.ok (.counterexample ⟨[0], [1, 2], .cycle⟩), ⟨3, 3, 3⟩⟩ ∧
      Lasso.length (⟨[0], [1, 2], .cycle⟩ : Lasso Nat) ≤ 3 := by
  have hcounting : run counting (· == 2) {} {} 3 = ⟨.ok .unavoidable, ⟨2, 2, 2⟩⟩ := by
    simp [run, counting, start, enter, Loop.rounds_eq_iterate, Loop.iterate, step, consider,
      poll?, pollInterval, answer, push, close, Limits.forbid?]
  have hreturning : run returning (· == 7) {} {} 2 =
      ⟨.ok (.counterexample ⟨[0], [1, 2], .cycle⟩), ⟨3, 3, 3⟩⟩ := by
    simp [run, returning, start, enter, Loop.rounds_eq_iterate, Loop.iterate, step, consider,
      poll?, pollInterval, answer, push, path, Limits.forbid?, Std.HashMap.getElem_insert]
  obtain ⟨_, haccounts, _⟩ := run_counters hcounting rfl
  obtain ⟨_, haccounts', _⟩ := run_counters hreturning rfl
  have h := haccounts rfl
  exact ⟨hcounting, h.counted, h.distinct, h.unavoidable rfl, hreturning,
    (haccounts' rfl).cycle _ rfl rfl⟩

end TapeReach.Search
