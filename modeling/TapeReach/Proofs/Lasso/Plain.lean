import Mathlib.Data.List.Lex
import Mathlib.Data.List.Nodup
import TapeReach.Lasso.Search

/-!
# The plain search

The plain search for a lasso has no memory but its path. It tries the
successors of the last state in order, follows each one that satisfies no
target and is not on the path, and stops at the first dead end and at the
first way back onto the path. A state that can be reached in many ways is
searched as many times.

A way through the system is given by the number of the successor chosen in
each state. The lasso of the plain search is the one at the end of the first
way in the lexicographic order of these choices.
-/

namespace TapeReach.PlainSearch

variable {σ ε : Type}

/-- The first answer, unless it is that every run reaches the target. -/
def otherwise (first second : Except ε (Verdict σ)) : Except ε (Verdict σ) :=
  match first with
  | .ok .unavoidable => second
  | answer => answer

/-- The first answer for a state of a list other than that every run reaches the target. -/
def firstAnswer (attempt : σ → Except ε (Verdict σ)) : List σ → Except ε (Verdict σ)
  | [] => .ok .unavoidable
  | y :: rest => otherwise (attempt y) (firstAnswer attempt rest)

/-- Try a state behind the path: it may satisfy the target, close a cycle or be entered. -/
def attempt [BEq σ] (isTarget : σ → Bool) (enter : σ → Except ε (Verdict σ)) (path : List σ)
    (y : σ) : Except ε (Verdict σ) :=
  if isTarget y then .ok .unavoidable
  else
    match path.idxOf? y with
    | some i => .ok (.counterexample ⟨path.take i, path.drop i, .cycle⟩)
    | none => enter y

/-- Enter a state behind the path and try its successors in order. No path becomes longer
by more than `depth` states. -/
def enter [BEq σ] (system : TransitionSystem σ ε) (isTarget : σ → Bool) :
    (depth : Nat) → List σ → σ → Except ε (Verdict σ)
  | 0, _, _ => .ok (.incomplete .iterationLimit)
  | depth + 1, path, x =>
    match system.successors x with
    | .error e => .error e
    | .ok [] => .ok (.counterexample ⟨path, [x], .deadEnd⟩)
    | .ok (y :: rest) =>
      firstAnswer (attempt isTarget (enter system isTarget depth (path ++ [x])) (path ++ [x]))
        (y :: rest)

/-- Search along all paths of at most `depth` states. -/
def run [BEq σ] (system : TransitionSystem σ ε) (isTarget : σ → Bool) (depth : Nat) :
    Except ε (Verdict σ) :=
  if isTarget system.initial then .ok .unavoidable
  else enter system isTarget depth [] system.initial

/-- Choosing successors by their numbers leads from `x` at the end of a path to the first
state that is a dead end or that leads back onto the path. -/
inductive Finds (system : TransitionSystem σ ε) (isTarget : σ → Bool) :
    (path : List σ) → (x : σ) → (choices : List Nat) → Lasso σ → Prop
  | deadEnd {path : List σ} {x : σ} (hx : system.successors x = .ok []) :
      Finds system isTarget path x [] ⟨path, [x], .deadEnd⟩
  | cycle {path next : List σ} {x y : σ} {i j : Nat} (hx : system.successors x = .ok next)
      (hi : next[i]? = some y) (ht : isTarget y = false) (hj : (path ++ [x])[j]? = some y) :
      Finds system isTarget path x [i]
        ⟨(path ++ [x]).take j, (path ++ [x]).drop j, .cycle⟩
  | next {path next : List σ} {x y : σ} {i : Nat} {choices : List Nat} {lasso : Lasso σ}
      (hx : system.successors x = .ok next) (hi : next[i]? = some y) (ht : isTarget y = false)
      (hy : y ∉ path ++ [x]) (h : Finds system isTarget (path ++ [x]) y choices lasso) :
      Finds system isTarget path x (i :: choices) lasso

/-- The lasso is found by the first choices that find one, in lexicographic order. -/
def FindsFirst (system : TransitionSystem σ ε) (isTarget : σ → Bool) (path : List σ) (x : σ)
    (lasso : Lasso σ) : Prop :=
  ∃ choices, Finds system isTarget path x choices lasso ∧
    ∀ choices' lasso', Finds system isTarget path x choices' lasso' →
      choices' = choices ∨ List.Lex (· < ·) choices choices'

/-- What the answer of the plain search from a state says about choices. -/
structure Answers (system : TransitionSystem σ ε) (isTarget : σ → Bool) (path : List σ) (x : σ)
    (answer : Except ε (Verdict σ)) : Prop where
  /-- If every run reaches the target, then no choices find a lasso. -/
  none : answer = .ok .unavoidable →
    ∀ choices lasso, ¬ Finds system isTarget path x choices lasso
  /-- A lasso is found by the first choices that find one. -/
  first : ∀ lasso, answer = .ok (.counterexample lasso) → FindsFirst system isTarget path x lasso

section Answers

variable {first second third : Except ε (Verdict σ)}

@[simp] theorem unavoidable_otherwise :
    otherwise (.ok .unavoidable) second = second := rfl

/-- Any other answer counts. -/
theorem otherwise_of_ne (h : first ≠ .ok .unavoidable) : otherwise first second = first := by
  unfold otherwise
  split
  · exact absurd rfl h
  · rfl

@[simp] theorem otherwise_unavoidable : otherwise first (.ok .unavoidable) = first := by
  unfold otherwise
  split <;> rfl

/-- Of three answers it does not matter which two are taken together. -/
theorem otherwise_assoc :
    otherwise (otherwise first second) third = otherwise first (otherwise second third) := by
  by_cases h : first = .ok .unavoidable
  · rw [h, unavoidable_otherwise, unavoidable_otherwise]
  · rw [otherwise_of_ne h, otherwise_of_ne h, otherwise_of_ne h]

/-- All states of a list are answered alike, or the answer is that of one behind such. -/
theorem firstAnswer_cases (attempt : σ → Except ε (Verdict σ)) (states : List σ) :
    (firstAnswer attempt states = .ok .unavoidable ∧
      ∀ y ∈ states, attempt y = .ok .unavoidable) ∨
    ∃ i y, states[i]? = some y ∧ attempt y ≠ .ok .unavoidable ∧
      firstAnswer attempt states = attempt y ∧
      ∀ (j : Nat) (z : σ), j < i → states[j]? = some z → attempt z = .ok .unavoidable := by
  induction states with
  | nil => exact .inl ⟨rfl, fun y hy => (List.not_mem_nil hy).elim⟩
  | cons x rest ih =>
    by_cases hx : attempt x = .ok .unavoidable
    · have hrest : firstAnswer attempt (x :: rest) = firstAnswer attempt rest := by
        rw [firstAnswer, hx, unavoidable_otherwise]
      rcases ih with ⟨hall, hmem⟩ | ⟨i, y, hi, hne, heq, hbefore⟩
      · refine .inl ⟨hrest.trans hall, fun y hy => ?_⟩
        rcases List.mem_cons.mp hy with rfl | hy
        · exact hx
        · exact hmem y hy
      · refine .inr ⟨i + 1, y, hi, hne, hrest.trans heq, fun j z hj hz => ?_⟩
        cases j with
        | zero =>
          rw [List.getElem?_cons_zero, Option.some.injEq] at hz
          exact hz ▸ hx
        | succ j => exact hbefore j z (by omega) hz
    · refine .inr ⟨0, x, rfl, hx, otherwise_of_ne hx, fun j z hj _ => ?_⟩
      omega

/-- Successors that all lead to the target lead to it together. -/
theorem firstAnswer_unavoidable {attempt : σ → Except ε (Verdict σ)} {states : List σ}
    (h : ∀ y ∈ states, attempt y = .ok .unavoidable) :
    firstAnswer attempt states = .ok .unavoidable := by
  rcases firstAnswer_cases attempt states with ⟨hall, _⟩ | ⟨i, y, hi, hne, _⟩
  · exact hall
  · exact absurd (h y (List.mem_of_getElem? hi)) hne

end Answers

section Attempts

variable [BEq σ] {system : TransitionSystem σ ε} {isTarget : σ → Bool} {depth : Nat}
  {path next : List σ} {x y : σ} {step : σ → Except ε (Verdict σ)}

/-- A target state is not followed. -/
theorem attempt_target (ht : isTarget y = true) :
    attempt isTarget step path y = .ok .unavoidable := by
  rw [attempt, if_pos ht]

/-- A state that has successors is entered by trying them. -/
theorem enter_succ (hx : system.successors x = .ok next) (hne : next ≠ []) :
    enter system isTarget (depth + 1) path x =
      firstAnswer (attempt isTarget (enter system isTarget depth (path ++ [x])) (path ++ [x]))
        next := by
  cases next with
  | nil => exact absurd rfl hne
  | cons y rest => simp only [enter, hx]

/-- A state that has none is a dead end. -/
theorem enter_deadEnd (hx : system.successors x = .ok []) :
    enter system isTarget (depth + 1) path x = .ok (.counterexample ⟨path, [x], .deadEnd⟩) := by
  simp only [enter, hx]

/-- A state whose successors are not known is a failure. -/
theorem enter_error {e : ε} (hx : system.successors x = .error e) :
    enter system isTarget (depth + 1) path x = .error e := by
  simp only [enter, hx]

variable [LawfulBEq σ]

/-- A state on the path closes a cycle. -/
theorem attempt_mem (step : σ → Except ε (Verdict σ)) (ht : isTarget y = false) (hy : y ∈ path) :
    ∃ i, path[i]? = some y ∧ attempt isTarget step path y =
      .ok (.counterexample ⟨path.take i, path.drop i, .cycle⟩) := by
  obtain ⟨i, hi⟩ : ∃ i, path.idxOf? y = some i := by
    rw [← Option.ne_none_iff_exists', ne_eq, List.idxOf?_eq_none_iff, not_not]
    exact hy
  obtain ⟨hlt, hget, _⟩ := List.idxOf?_eq_some_iff.mp hi
  refine ⟨i, ?_, ?_⟩
  · rw [List.getElem?_eq_getElem hlt, hget]
  · rw [attempt, if_neg (Bool.eq_false_iff.mp ht), hi]

/-- On a path without repeats the cycle starts where the state is. -/
theorem attempt_cycle (ht : isTarget y = false) (hnodup : path.Nodup) {i : Nat}
    (hi : path[i]? = some y) :
    attempt isTarget step path y =
      .ok (.counterexample ⟨path.take i, path.drop i, .cycle⟩) := by
  obtain ⟨j, hj, hattempt⟩ := attempt_mem step ht (List.mem_of_getElem? hi)
  have hlt := (List.getElem?_eq_some_iff.mp hi).1
  have hij : i = j := (List.getElem?_inj hlt hnodup).mp (hi.trans hj.symm)
  rw [hattempt, hij]

/-- A state that is not on the path and satisfies no target is entered. -/
theorem attempt_new (ht : isTarget y = false) (hy : y ∉ path) :
    attempt isTarget step path y = step y := by
  rw [attempt, if_neg (Bool.eq_false_iff.mp ht), List.idxOf?_eq_none_iff.mpr hy]

end Attempts

section Order

variable {system : TransitionSystem σ ε} {isTarget : σ → Bool} {path next : List σ} {x y : σ}
  {choices : List Nat} {lasso : Lasso σ}

/-- What choices that find a lasso begin with: in a dead end there are none, and elsewhere the
first one closes a cycle or leads on. -/
theorem Finds.cases_first (h : Finds system isTarget path x choices lasso)
    (hx : system.successors x = .ok next) :
    next = [] ∧ choices = [] ∨
      ∃ i y rest, next[i]? = some y ∧ isTarget y = false ∧ choices = i :: rest ∧
        (y ∈ path ++ [x] ∧ rest = [] ∨
          y ∉ path ++ [x] ∧ Finds system isTarget (path ++ [x]) y rest lasso) := by
  cases h with
  | deadEnd hx' =>
    rw [hx] at hx'
    cases hx'
    exact .inl ⟨rfl, rfl⟩
  | cycle hx' hi ht hj =>
    rw [hx] at hx'
    cases hx'
    exact .inr ⟨_, _, _, hi, ht, rfl, .inl ⟨List.mem_of_getElem? hj, rfl⟩⟩
  | next hx' hi ht hy h =>
    rw [hx] at hx'
    cases hx'
    exact .inr ⟨_, _, _, hi, ht, rfl, .inr ⟨hy, h⟩⟩

variable [BEq σ] [LawfulBEq σ] {depth : Nat}

/-- A successor whose attempt leads to the target begins no choices that find a lasso. -/
theorem attempt_ne_unavoidable {step : σ → Except ε (Verdict σ)}
    (hstep : Answers system isTarget path y (step y)) (ht : isTarget y = false)
    (h : y ∈ path ∧ choices = [] ∨ y ∉ path ∧ Finds system isTarget path y choices lasso) :
    attempt isTarget step path y ≠ .ok .unavoidable := by
  intro hattempt
  rcases h with ⟨hy, _⟩ | ⟨hy, hfinds⟩
  · obtain ⟨i, _, heq⟩ := attempt_mem step ht hy
    rw [heq] at hattempt
    cases hattempt
  · rw [attempt_new ht hy] at hattempt
    exact hstep.none hattempt choices lasso hfinds

/-- A lasso that the first successor not leading to the target gives is found first. -/
theorem findsFirst_of_attempt {step : σ → Except ε (Verdict σ)}
    (hstep : ∀ y, Answers system isTarget (path ++ [x]) y (step y))
    (hx : system.successors x = .ok next) {i : Nat} (hi : next[i]? = some y)
    (hy : attempt isTarget step (path ++ [x]) y = .ok (.counterexample lasso))
    (hbefore : ∀ (j : Nat) (z : σ), j < i → next[j]? = some z →
      attempt isTarget step (path ++ [x]) z = .ok .unavoidable) :
    FindsFirst system isTarget path x lasso := by
  have hne : next ≠ [] := List.ne_nil_of_mem (List.mem_of_getElem? hi)
  have ht : isTarget y = false := by
    by_contra ht
    rw [attempt_target (Bool.not_eq_false _ ▸ ht)] at hy
    cases hy
  -- Other choices cannot begin with an earlier successor; beginning with a later one, they
  -- come behind. What is left are those that begin with the same successor.
  have hlater : ∀ rest, (∀ rest' lasso', (y ∈ path ++ [x] ∧ rest' = [] ∨
        y ∉ path ++ [x] ∧ Finds system isTarget (path ++ [x]) y rest' lasso') →
        rest' = rest ∨ List.Lex (· < ·) rest rest') →
      ∀ choices' lasso', Finds system isTarget path x choices' lasso' →
        choices' = i :: rest ∨ List.Lex (· < ·) (i :: rest) choices' := by
    intro rest hsame choices' lasso' hfinds
    rcases hfinds.cases_first hx with ⟨hnil, _⟩ | ⟨j, z, rest', hj, hz, rfl, hrest'⟩
    · exact absurd hnil hne
    · rcases Nat.lt_trichotomy j i with hlt | rfl | hgt
      · exact absurd (hbefore j z hlt hj) (attempt_ne_unavoidable (hstep z) hz hrest')
      · rw [hi, Option.some.injEq] at hj
        subst hj
        exact (hsame rest' lasso' hrest').imp (congrArg _) .cons
      · exact .inr (.rel hgt)
  by_cases hmem : y ∈ path ++ [x]
  · obtain ⟨j, hj, heq⟩ := attempt_mem step ht hmem
    rw [heq] at hy
    cases hy
    refine ⟨[i], .cycle hx hi ht hj, hlater [] fun rest' lasso' hrest' => ?_⟩
    exact .inl (hrest'.resolve_right fun h => h.1 hmem).2
  · rw [attempt_new ht hmem] at hy
    obtain ⟨rest, hfinds, hleast⟩ := (hstep y).first lasso hy
    refine ⟨i :: rest, .next hx hi ht hmem hfinds, hlater rest fun rest' lasso' hrest' => ?_⟩
    exact hleast rest' lasso' (hrest'.resolve_left fun h => hmem h.1).2

/-- The plain search from a state finds the lasso of the first choices, if there is one. -/
theorem enter_answers (system : TransitionSystem σ ε) (isTarget : σ → Bool) (depth : Nat)
    (path : List σ) (x : σ) :
    Answers system isTarget path x (enter system isTarget depth path x) := by
  induction depth generalizing path x with
  | zero => refine ⟨fun h => ?_, fun _ h => ?_⟩ <;> cases h
  | succ depth ih =>
    cases hx : system.successors x with
    | error e =>
      rw [enter_error hx]
      refine ⟨fun h => ?_, fun _ h => ?_⟩ <;> cases h
    | ok next =>
      by_cases hne : next = []
      · subst hne
        rw [enter_deadEnd hx]
        refine ⟨fun h => ?_, fun lasso h => ?_⟩
        · cases h
        · cases h
          refine ⟨[], .deadEnd hx, fun choices' _ _ => ?_⟩
          cases choices' with
          | nil => exact .inl rfl
          | cons i rest => exact .inr .nil
      · rw [enter_succ hx hne]
        rcases firstAnswer_cases
          (attempt isTarget (enter system isTarget depth (path ++ [x])) (path ++ [x])) next with
          ⟨heq, hall⟩ | ⟨i, y, hi, hy, heq, hbefore⟩
        · rw [heq]
          refine ⟨fun _ choices lasso hfinds => ?_, fun _ h => by cases h⟩
          rcases hfinds.cases_first hx with ⟨hnil, _⟩ | ⟨i, y, rest, hi, ht, _, hrest⟩
          · exact hne hnil
          · have hunavoidable := hall y (List.mem_of_getElem? hi)
            exact attempt_ne_unavoidable (ih _ y) ht hrest hunavoidable
        · rw [heq]
          exact ⟨fun h => absurd h hy, fun lasso h =>
            findsFirst_of_attempt (fun z => ih _ z) hx hi h hbefore⟩

end Order

end TapeReach.PlainSearch
