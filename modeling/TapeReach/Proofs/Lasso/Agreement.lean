import Mathlib.Data.Set.Card
import TapeReach.Proofs.Lasso.Iterations
import TapeReach.Proofs.Lasso.Plain

/-!
# The search agrees with the plain search

The search skips closed states, and the plain search does not. Nothing is
lost: the target is inevitable from a closed state, and from there no state of
the path can be reached, so the plain search runs through the states behind it
without an answer and returns. At every iteration the plain search, resumed
with the path and the successors that are left to try, would give the answer
that it gives from the start. When the search ends, this is its own answer.
-/

namespace TapeReach

namespace TransitionSystem

variable {σ ε : Type} {system : TransitionSystem σ ε} {isTarget : σ → Bool}

/-- The first state does not satisfy the target and leads to the second. -/
def Onward (system : TransitionSystem σ ε) (isTarget : σ → Bool) (s t : σ) : Prop :=
  isTarget s = false ∧ system.Leads s t

/-- An inevitable state is on no cycle without the target. -/
theorem Inevitable.acyclic {s : σ} (h : system.Inevitable isTarget s) (t : σ)
    (hst : system.Onward isTarget s t) :
    ¬ Relation.ReflTransGen (system.Onward isTarget) t s := by
  induction h generalizing t with
  | here hs =>
    rw [hst.1] at hs
    cases hs
  | next hs _ _ ih =>
    obtain ⟨_, next, hnext, hmem⟩ := id hst
    rw [hs] at hnext
    cases hnext
    intro hback
    -- A cycle through the state is one through its successor.
    rcases hback.cases_head with rfl | ⟨u, htu, hus⟩
    · exact ih t hmem t hst .refl
    · exact ih t hmem u htu (hus.tail hst)

end TransitionSystem

namespace PlainSearch

variable {σ ε : Type}

/-- The path has no repeats, and its states avoid the target. -/
structure Simple (system : TransitionSystem σ ε) (isTarget : σ → Bool) (path : List σ) : Prop where
  /-- No state comes twice. -/
  nodup : path.Nodup
  /-- The states are reached through states without the target. -/
  avoids : ∀ x ∈ path, system.Avoids isTarget x

/-- No simple path has more than `depth` states. -/
def Suffices (system : TransitionSystem σ ε) (isTarget : σ → Bool) (depth : Nat) : Prop :=
  ∀ path, Simple system isTarget path → path.length ≤ depth

variable {system : TransitionSystem σ ε} {isTarget : σ → Bool} {depth : Nat} {path : List σ}
  {x y : σ}

/-- The empty path is simple. -/
theorem Simple.nil : Simple system isTarget [] :=
  ⟨List.nodup_nil, fun _ hx => (List.not_mem_nil hx).elim⟩

/-- A simple path may go on with a new state. -/
theorem Simple.concat (h : Simple system isTarget path) (hy : system.Avoids isTarget y)
    (hnew : y ∉ path) : Simple system isTarget (path ++ [y]) where
  nodup := by
    refine h.nodup.append (List.nodup_singleton y) fun x hx hxy => ?_
    rw [List.mem_singleton.mp hxy] at hx
    exact hnew hx
  avoids x hx := by
    rcases List.mem_append.mp hx with hx | hx
    · exact h.avoids x hx
    · rw [List.mem_singleton.mp hx]
      exact hy

/-- As many states as avoid the target suffice. -/
theorem suffices_of_ncard_le (hfinite : {s | system.Avoids isTarget s}.Finite)
    (h : {s | system.Avoids isTarget s}.ncard ≤ depth) : Suffices system isTarget depth := by
  classical
  intro path hpath
  have hsubset : (path.toFinset : Set σ) ⊆ {s | system.Avoids isTarget s} := by
    intro s hs
    exact hpath.avoids s (List.mem_toFinset.mp hs)
  have hle := Set.ncard_le_ncard hsubset hfinite
  rw [Set.ncard_coe_finset, List.toFinset_card_of_nodup hpath.nodup] at hle
  omega

variable [BEq σ]

/-- Try a state behind a path that may grow to `depth` states. -/
def follow (system : TransitionSystem σ ε) (isTarget : σ → Bool) (depth : Nat) (path : List σ) :
    σ → Except ε (Verdict σ) :=
  attempt isTarget (enter system isTarget (depth - path.length) path) path

/-- Go on with a path and the successors that are left to try, the last state first. -/
def resume (system : TransitionSystem σ ε) (isTarget : σ → Bool) (depth : Nat) :
    List (Frame σ) → Except ε (Verdict σ)
  | [] => .ok .unavoidable
  | frame :: below =>
    let path := below.reverse.map Frame.state ++ [frame.state]
    otherwise (firstAnswer (follow system isTarget depth path) frame.pending)
      (resume system isTarget depth below)

/-- Going on with a path is going on from its last state and then from the states before. -/
theorem resume_push {front : Array (Frame σ)} {pending : List σ} :
    resume system isTarget depth (front.push ⟨x, pending⟩).toList.reverse =
      otherwise
        (firstAnswer (follow system isTarget depth (front.toList.map Frame.state ++ [x])) pending)
        (resume system isTarget depth front.toList.reverse) := by
  rw [Array.toList_push, List.reverse_append, List.reverse_singleton, List.singleton_append,
    resume, List.reverse_reverse]

/-- The plain search follows the initial state behind an empty path. -/
theorem run_eq_follow :
    run system isTarget depth = follow system isTarget depth [] system.initial := rfl

variable [LawfulBEq σ]

/-- A new state is entered with depth left. -/
theorem follow_new (hdepth : Suffices system isTarget depth) (hpath : Simple system isTarget path)
    (hy : system.Avoids isTarget y) (hnew : y ∉ path) :
    follow system isTarget depth path y =
      enter system isTarget (depth - (path ++ [y]).length + 1) path y := by
  have hlong := hdepth _ (hpath.concat hy hnew)
  rw [List.length_append, List.length_singleton] at hlong ⊢
  have hleft : depth - path.length = depth - (path.length + 1) + 1 := by omega
  rw [follow, attempt_new hy.not_target hnew, hleft]

/-- A new state that has successors is followed by trying them. -/
theorem follow_successors (hdepth : Suffices system isTarget depth)
    (hpath : Simple system isTarget path) (hy : system.Avoids isTarget y) (hnew : y ∉ path)
    {next : List σ} (hnext : system.successors y = .ok next) (hne : next ≠ []) :
    follow system isTarget depth path y =
      firstAnswer (follow system isTarget depth (path ++ [y])) next := by
  rw [follow_new hdepth hpath hy hnew, enter_succ hnext hne]
  rfl

/-- The plain search has no answer behind an inevitable state from which one cannot get back
onto the path. -/
theorem follow_inevitable (hdepth : Suffices system isTarget depth)
    (h : system.Inevitable isTarget y) (hpath : Simple system isTarget path)
    (hy : isTarget y = false → system.Avoids isTarget y)
    (haway : ∀ x ∈ path, ¬ Relation.ReflTransGen (system.Onward isTarget) y x) :
    follow system isTarget depth path y = .ok .unavoidable := by
  induction h generalizing path with
  | here ht => exact attempt_target ht
  | @next y next hnext hne hall ih =>
    cases ht : isTarget y with
    | true => exact attempt_target ht
    | false =>
      have hnew : y ∉ path := fun hmem => haway y hmem .refl
      rw [follow_successors hdepth hpath (hy ht) hnew hnext hne]
      refine firstAnswer_unavoidable fun z hz => ?_
      have hyz : system.Onward isTarget y z := ⟨ht, next, hnext, hz⟩
      refine ih z hz (hpath.concat (hy ht) hnew) (.next (hy ht) hyz.2) fun x hx hback => ?_
      -- A way back onto the path from here is one from before, or it closes a cycle.
      rcases List.mem_append.mp hx with hx | hx
      · exact haway x hx (.head hyz hback)
      · rw [List.mem_singleton.mp hx] at hback
        exact (TransitionSystem.Inevitable.next hnext hne hall).acyclic z hyz hback

end PlainSearch

namespace Search

open PlainSearch

variable {σ ε : Type} [BEq σ] [Hashable σ] {system : TransitionSystem σ ε} {isTarget : σ → Bool}
  {limits : Limits} {depth : Nat} {s s' : Search σ}

/-- What the plain search answers when it goes on from where the search is. -/
def remaining (system : TransitionSystem σ ε) (isTarget : σ → Bool) (depth : Nat) (s : Search σ) :
    Except ε (Verdict σ) :=
  resume system isTarget depth s.stack.toList.reverse

/-- The answer from the last state counts first, then that from the states before it. -/
theorem remaining_of_push {front : Array (Frame σ)} {x : σ} {pending : List σ}
    (hs : s.stack = front.push ⟨x, pending⟩) :
    remaining system isTarget depth s =
      otherwise
        (firstAnswer (follow system isTarget depth (front.toList.map Frame.state ++ [x])) pending)
        (resume system isTarget depth front.toList.reverse) := by
  rw [remaining, hs, resume_push]

/-- The path of a search is simple. -/
theorem Invariant.simple (h : Invariant system isTarget s) : Simple system isTarget s.path :=
  ⟨h.indexed.nodup, h.avoids⟩

/-- A successor that may be entered avoids the target and is not on the path. -/
theorem Invariant.next_new (h : Invariant system isTarget s) {front : Array (Frame σ)} {x y : σ}
    {rest : List σ} (hs : s.stack = front.push ⟨x, y :: rest⟩) (ht : isTarget y = false)
    (hon : s.onStack[y]? = none) : system.Avoids isTarget y ∧ y ∉ s.path :=
  ⟨h.avoids_next hs ht y (List.mem_append_right _ (List.mem_singleton_self y)),
    h.indexed.not_mem hon⟩

/-- From a closed state one gets to closed states and to target states only. -/
theorem Invariant.closed_onward (h : Invariant system isTarget s) {y z : σ} (hy : y ∈ s.closed)
    (hyz : Relation.ReflTransGen (system.Onward isTarget) y z) :
    isTarget z = true ∨ z ∈ s.closed := by
  induction hyz with
  | refl => exact .inr hy
  | tail _ hlast ih =>
    obtain ⟨ht, next, hnext, hmem⟩ := hlast
    rcases ih with htarget | hclosed
    · rw [ht] at htarget
      cases htarget
    · obtain ⟨next', hnext', _, hall⟩ := h.closedNext _ hclosed
      rw [hnext] at hnext'
      cases hnext'
      exact hall _ hmem

variable [LawfulBEq σ]

/-- The plain search has no answer behind a closed state. -/
theorem Invariant.follow_closed (h : Invariant system isTarget s)
    (hdepth : Suffices system isTarget depth) {y : σ} (hy : y ∈ s.closed) :
    follow system isTarget depth s.path y = .ok .unavoidable := by
  refine follow_inevitable hdepth (h.closedInevitable y hy) h.simple
    (fun _ => h.closedAvoids y hy) fun x hx hyx => ?_
  rcases h.closed_onward hy hyx with ht | hc
  · rw [(h.avoids x hx).not_target] at ht
    cases ht
  · exact h.apart x hx hc

/-- An iteration that goes on leaves the remaining answer as it is. -/
theorem Advance.remaining_eq (h : Invariant system isTarget s)
    (hdepth : Suffices system isTarget depth) (ha : Advance system isTarget limits s s') :
    remaining system isTarget depth s' = remaining system isTarget depth s := by
  cases ha with
  | @close front x hs =>
    rw [remaining_of_push hs, firstAnswer, unavoidable_otherwise]
    rfl
  | @skip front x y rest hs hy =>
    have hskip : follow system isTarget depth s.path y = .ok .unavoidable := by
      rcases hy with ht | hc
      · exact attempt_target ht
      · exact h.follow_closed hdepth hc
    rw [remaining_of_push hs, remaining_of_push rfl, ← path_of_push hs, firstAnswer, hskip,
      unavoidable_otherwise]
  | @enter front x y rest next hs ht hon hc hf hnext hne =>
    obtain ⟨hy, hnew⟩ := h.next_new hs ht hon
    have hfront : (front.push ⟨x, rest⟩).toList.map Frame.state = s.path := by
      rw [path_of_push hs, Array.toList_push, List.map_append]
      rfl
    rw [remaining_of_push hs, remaining_of_push rfl, hfront, resume_push, ← path_of_push hs,
      firstAnswer, follow_successors hdepth h.simple hy hnew hnext hne, otherwise_assoc]

/-- An iteration that ends without limits gives the remaining answer. -/
theorem Ending.verdict_eq (h : Invariant system isTarget s)
    (hdepth : Suffices system isTarget depth) {r : SearchResult σ ε}
    (hend : Ending system isTarget {} {} s r) :
    r.verdict = remaining system isTarget depth s := by
  cases hend with
  | polled hp =>
    rw [poll?_eq_none rfl (fun _ => rfl)] at hp
    cases hp
  | exhausted hs =>
    rw [remaining, hs]
    rfl
  | @cycle front x y rest i hs ht hi =>
    have hcycle : follow system isTarget depth s.path y =
        .ok (.counterexample ⟨s.path.take i, s.path.drop i, .cycle⟩) :=
      attempt_cycle ht h.indexed.nodup ((h.indexed y i).mp hi)
    rw [remaining_of_push hs, ← path_of_push hs, firstAnswer, hcycle]
    rfl
  | limited _ _ _ _ hf => cases hf
  | @failed front x y rest e hs ht hon hc hf he =>
    obtain ⟨hy, hnew⟩ := h.next_new hs ht hon
    rw [remaining_of_push hs, ← path_of_push hs, firstAnswer,
      follow_new hdepth h.simple hy hnew, enter_error he]
    rfl
  | @deadEnd front x y rest hs ht hon hc hf hnext =>
    obtain ⟨hy, hnew⟩ := h.next_new hs ht hon
    rw [remaining_of_push hs, ← path_of_push hs, firstAnswer,
      follow_new hdepth h.simple hy hnew, enter_deadEnd hnext]
    rfl

/-- What remains at the first iteration is the whole plain search. -/
theorem start_remaining (hdepth : Suffices system isTarget depth)
    (h : start system isTarget = .more s) :
    remaining system isTarget depth s = PlainSearch.run system isTarget depth := by
  obtain ⟨ht, next, hnext, hne, rfl⟩ := start_more h
  rw [run_eq_follow, follow_successors hdepth .nil (.initial ht) List.not_mem_nil hnext hne]
  exact otherwise_unavoidable

/-- A search that ends before its iterations gives the answer of the plain search. -/
theorem start_verdict_eq (hdepth : Suffices system isTarget depth) {r : SearchResult σ ε}
    (h : start system isTarget = .done r) :
    r.verdict = PlainSearch.run system isTarget depth := by
  rw [run_eq_follow]
  rcases start_done h with ⟨ht, rfl⟩ | ⟨ht, ⟨e, he, rfl⟩ | ⟨hnext, rfl⟩⟩
  · exact (attempt_target ht).symm
  · rw [follow_new hdepth .nil (.initial ht) List.not_mem_nil, enter_error he]
  · rw [follow_new hdepth .nil (.initial ht) List.not_mem_nil, enter_deadEnd hnext]

/-- A search without limits that ends gives the answer of the plain search. -/
theorem EndsWithin.verdict_eq (hdepth : Suffices system isTarget depth) {n : Nat}
    {r : SearchResult σ ε} (h : EndsWithin system isTarget {} {} n r) :
    r.verdict = PlainSearch.run system isTarget depth := by
  rcases h with hstart | ⟨first, hstart, hdone⟩
  · exact start_verdict_eq hdepth hstart
  · have hkept : ∀ s s', (Invariant system isTarget s ∧ remaining system isTarget depth s =
          PlainSearch.run system isTarget depth) → step system isTarget {} {} s = .more s' →
        Invariant system isTarget s' ∧ remaining system isTarget depth s' =
          PlainSearch.run system isTarget depth := by
      intro s s' hs hstep
      refine ⟨step_invariant s s' hs.1 hstep, ?_⟩
      rw [(step_more hstep).2.remaining_eq hs.1 hdepth, hs.2]
    obtain ⟨s, ⟨hs, hremaining⟩, hlast⟩ := Loop.iterate_done_invariant hkept
      ⟨start_invariant hstart, start_remaining hdepth hstart⟩ hdone
    rw [(step_done hlast).verdict_eq hs hdepth, hremaining]

/-- When finitely many states avoid the target, the search and the plain search end with the
same answer: the one as soon as it may take an iteration for each of these states and each of
their successors, the other as soon as its path may hold all of them. If no successors are
unknown, the answer is definite. It names a lasso if and only if some choices of successors
lead to one, and then the lasso of the first choices in lexicographic order. -/
theorem run_eq_plain (system : TransitionSystem σ ε) (isTarget : σ → Bool)
    (hfinite : {s | system.Avoids isTarget s}.Finite) :
    ∃ answer : Except ε (Verdict σ),
      (∀ depth, {s | system.Avoids isTarget s}.ncard ≤ depth →
        PlainSearch.run system isTarget depth = answer) ∧
      (∀ rounds, 1 + ∑ s ∈ hfinite.toFinset, (1 + system.degree s) ≤ 2 ^ rounds - 1 →
        (run system isTarget {} {} rounds).verdict = answer) ∧
      (system.Total →
        answer = .ok .unavoidable ∨ ∃ lasso, answer = .ok (.counterexample lasso)) ∧
      (isTarget system.initial = true → answer = .ok .unavoidable) ∧
      (isTarget system.initial = false →
        (answer = .ok .unavoidable →
          ∀ choices lasso, ¬ Finds system isTarget [] system.initial choices lasso) ∧
        ∀ lasso, answer = .ok (.counterexample lasso) →
          FindsFirst system isTarget [] system.initial lasso) := by
  have hstates : ∀ s, system.Avoids isTarget s → s ∈ hfinite.toFinset :=
    fun s hs => hfinite.mem_toFinset.mpr hs
  obtain ⟨r, hr⟩ := exists_endsWithin {} {} hstates
  have hplain : ∀ depth, {s | system.Avoids isTarget s}.ncard ≤ depth →
      PlainSearch.run system isTarget depth = r.verdict :=
    fun depth hdepth => (hr.verdict_eq (suffices_of_ncard_le hfinite hdepth)).symm
  have hleast := hplain _ le_rfl
  refine ⟨r.verdict, hplain, fun rounds hrounds => by rw [hr.run_eq hrounds],
    fun htotal => ?_, fun ht => ?_, fun ht => ?_⟩
  · obtain ⟨verdict, hr', hdefinite⟩ :=
      hr.definite (fun s _ => htotal s) rfl rfl fun _ => rfl
    rw [hr', Except.ok.injEq]
    refine hdefinite.imp_right fun ⟨lasso, hlasso⟩ => ⟨lasso, congrArg Except.ok hlasso⟩
  · rw [← hleast, PlainSearch.run, if_pos ht]
  · rw [PlainSearch.run, if_neg (Bool.eq_false_iff.mp ht)] at hleast
    have hanswers : Answers system isTarget [] system.initial r.verdict :=
      hleast ▸ enter_answers system isTarget _ [] system.initial
    exact ⟨hanswers.none, hanswers.first⟩

/-- Three states lead to the state 1, from which the target 4 is inevitable, and the last of
them also leads back to the one before it. -/
def detour : TransitionSystem (Fin 5) Unit :=
  ⟨0, fun s => .ok (match s with
    | 0 => [1, 2]
    | 1 => [4]
    | 2 => [1, 3]
    | 3 => [1, 2]
    | 4 => [4])⟩

/-- The search meets the state 1 twice more when it is closed, and the plain search runs through
it again each time. Both find the cycle behind it. -/
theorem detour_eq_plain :
    (run detour (· == 4) {} {} 4).verdict = .ok (.counterexample ⟨[0], [2, 3], .cycle⟩) ∧
      PlainSearch.run detour (· == 4) 5 = .ok (.counterexample ⟨[0], [2, 3], .cycle⟩) ∧
      FindsFirst detour (· == 4) [] 0 ⟨[0], [2, 3], .cycle⟩ := by
  have hfinite : {s | detour.Avoids (· == 4) s}.Finite := Set.toFinite _
  obtain ⟨answer, hplain, hrun, _, _, hfirst⟩ := run_eq_plain detour (· == 4) hfinite
  have hcard : {s | detour.Avoids (· == 4) s}.ncard ≤ 5 := by
    simpa using Set.ncard_le_card {s | detour.Avoids (· == 4) s}
  have hsum : ∑ s ∈ hfinite.toFinset, (1 + detour.degree s) ≤ 13 :=
    (Finset.sum_le_sum_of_subset (Finset.subset_univ _)).trans (by decide)
  have hanswer : PlainSearch.run detour (· == 4) 5 =
      .ok (.counterexample ⟨[0], [2, 3], .cycle⟩) := by
    rfl
  rw [hplain 5 hcard] at hanswer
  refine ⟨?_, ?_, (hfirst rfl).2 _ hanswer⟩
  · rw [hrun 4 (by omega), hanswer]
  · rw [hplain 5 hcard, hanswer]

end Search

end TapeReach
