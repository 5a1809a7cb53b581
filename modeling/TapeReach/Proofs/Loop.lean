import Mathlib.Algebra.Group.Nat.Defs
import TapeReach.Loop

/-!
# Iterations and invariants of loops

Rounds are a plain iteration, and a loop that has ended stays ended. What
every step keeps is kept by every number of steps, and a loop that ends does
so by one last step from a state in which the invariant still holds. A counter
that rises with each step and stays below a bound ends the loop.
-/

namespace TapeReach.Loop

variable {σ ρ : Type}

/-- Taking `m + n` steps is taking `m` steps and then, if the loop has not ended, `n`. -/
theorem iterate_add (step : σ → Step σ ρ) (m n : Nat) (s : σ) :
    iterate step (m + n) s =
      match iterate step m s with
      | .more s => iterate step n s
      | .done r => .done r := by
  induction m generalizing s with
  | zero => simp [iterate]
  | succ m ih =>
    rw [Nat.succ_add]
    simp only [iterate]
    cases step s with
    | more s => exact ih s
    | done r => rfl

/-- One more step of a loop that has not ended. -/
theorem iterate_succ_of_more {step : σ → Step σ ρ} {n : Nat} {s t : σ}
    (h : iterate step n s = .more t) : iterate step (n + 1) s = step t := by
  rw [iterate_add, h]
  simp only [iterate]
  cases step t <;> rfl

/-- A step that goes on is the first of the steps that follow. -/
theorem iterate_of_step {step : σ → Step σ ρ} {s t : σ} (h : step s = .more t) (n : Nat) :
    iterate step (n + 1) s = iterate step n t := by
  rw [iterate, h]

/-- A loop ends behind a step that goes on when it ends from there. -/
theorem iterate_done_of_step {step : σ → Step σ ρ} {n : Nat} {s t : σ} {r : ρ}
    (h : step s = .more t) (hdone : iterate step n t = .done r) :
    iterate step (n + 1) s = .done r :=
  (iterate_of_step h n).trans hdone

/-- States with the same step cannot be told apart by taking steps. -/
theorem iterate_succ_congr {step : σ → Step σ ρ} {s t : σ} (h : step s = step t) (n : Nat) :
    iterate step (n + 1) s = iterate step (n + 1) t := by
  rw [iterate, iterate, h]

/-- A loop that has ended stays ended when it is given more steps. -/
theorem iterate_eq_done_of_le {step : σ → Step σ ρ} {m n : Nat} {s : σ} {r : ρ}
    (h : iterate step m s = .done r) (hmn : m ≤ n) : iterate step n s = .done r := by
  obtain ⟨k, rfl⟩ := Nat.exists_eq_add_of_le hmn
  rw [iterate_add, h]

/-- A loop ends with one result, however many steps it is given. -/
theorem iterate_done_unique {step : σ → Step σ ρ} {m n : Nat} {s : σ} {r r' : ρ}
    (h : iterate step m s = .done r) (h' : iterate step n s = .done r') : r = r' := by
  have hm := iterate_eq_done_of_le h (Nat.le_max_left m n)
  rw [iterate_eq_done_of_le h' (Nat.le_max_right m n), Step.done.injEq] at hm
  exact hm.symm

/-- A loop that has ended took one last step behind all the others. -/
theorem exists_last_of_done {step : σ → Step σ ρ} {n : Nat} {s : σ} {r : ρ}
    (h : iterate step n s = .done r) :
    ∃ k < n, ∃ t, iterate step k s = .more t ∧ step t = .done r := by
  induction n generalizing s with
  | zero => simp only [iterate, reduceCtorEq] at h
  | succ n ih =>
    cases hs : step s with
    | more t =>
      rw [iterate_of_step hs] at h
      obtain ⟨k, hk, u, hu, hlast⟩ := ih h
      exact ⟨k + 1, Nat.succ_lt_succ hk, u, (iterate_of_step hs k).trans hu, hlast⟩
    | done q =>
      simp only [iterate, hs, Step.done.injEq] at h
      exact ⟨0, Nat.zero_lt_succ n, s, rfl, h ▸ hs⟩

/-- Where each step of one loop is matched by a step of another, so is every number of
steps. -/
theorem exists_iterate_of_simulation {step : σ → Step σ ρ} {R : σ → σ → Prop}
    (hstep : ∀ s s' t, R s t → step s = .more s' → ∃ t', step t = .more t' ∧ R s' t')
    {n : Nat} {s s' t : σ} (hs : R s t) (h : iterate step n s = .more s') :
    ∃ t', iterate step n t = .more t' ∧ R s' t' := by
  induction n generalizing s t with
  | zero =>
    simp only [iterate, Step.more.injEq] at h
    exact ⟨t, rfl, h ▸ hs⟩
  | succ n ih =>
    cases hn : step s with
    | done r => simp only [iterate, hn, reduceCtorEq] at h
    | more next =>
      obtain ⟨next', hnext', hR⟩ := hstep s next t hs hn
      rw [iterate_of_step hn] at h
      rw [iterate_of_step hnext']
      exact ih hR h

/-- Rounds are a plain iteration: `k` rounds that start with `length` steps take
`(2 ^ k - 1) * length` steps. -/
theorem rounds_eq_iterate (step : σ → Step σ ρ) (k length : Nat) (s : σ) :
    rounds step k length s = iterate step ((2 ^ k - 1) * length) s := by
  induction k generalizing length s with
  | zero => simp [rounds, iterate]
  | succ k ih =>
    have hpos : 0 < 2 ^ k := Nat.two_pow_pos k
    have hsplit : (2 ^ (k + 1) - 1) * length = length + (2 ^ k - 1) * (2 * length) := by
      obtain ⟨m, hm⟩ : ∃ m, 2 ^ k = m + 1 := ⟨2 ^ k - 1, by omega⟩
      have hsucc : 2 ^ (k + 1) - 1 = 2 * m + 1 := by rw [Nat.pow_succ]; omega
      rw [hsucc, hm, Nat.add_sub_cancel, Nat.add_mul, Nat.one_mul, Nat.add_comm,
        Nat.mul_comm 2 m, Nat.mul_assoc]
    rw [hsplit, iterate_add, rounds]
    cases iterate step length s with
    | more s => exact ih (2 * length) s
    | done r => rfl

variable {step : σ → Step σ ρ} {Inv : σ → Prop}

/-- What a step keeps holds wherever the loop has got to. -/
theorem iterate_more_invariant (hstep : ∀ s s', Inv s → step s = .more s' → Inv s')
    {n : Nat} {s s' : σ} (hs : Inv s) (h : iterate step n s = .more s') : Inv s' := by
  induction n generalizing s with
  | zero =>
    simp only [iterate, Step.more.injEq] at h
    exact h ▸ hs
  | succ n ih =>
    simp only [iterate] at h
    cases hn : step s with
    | more t =>
      rw [hn] at h
      exact ih (hstep s t hs hn) h
    | done r => simp only [hn, reduceCtorEq] at h

/-- A loop that has ended took its last step in a state with the invariant. -/
theorem iterate_done_invariant (hstep : ∀ s s', Inv s → step s = .more s' → Inv s')
    {n : Nat} {s : σ} {r : ρ} (hs : Inv s) (h : iterate step n s = .done r) :
    ∃ t, Inv t ∧ step t = .done r := by
  induction n generalizing s with
  | zero => simp only [iterate, reduceCtorEq] at h
  | succ n ih =>
    simp only [iterate] at h
    cases hn : step s with
    | more t =>
      rw [hn] at h
      exact ih (hstep s t hs hn) h
    | done q =>
      rw [hn] at h
      exact ⟨s, hs, hn.trans h⟩

/-- A counter that rises by one with each step tells the number of steps taken. -/
theorem iterate_more_count {count : σ → Nat}
    (hcount : ∀ s s', step s = .more s' → count s' = count s + 1)
    {n : Nat} {s s' : σ} (h : iterate step n s = .more s') : count s' = count s + n := by
  induction n generalizing s with
  | zero =>
    simp only [iterate, Step.more.injEq] at h
    rw [h, Nat.add_zero]
  | succ n ih =>
    simp only [iterate] at h
    cases hn : step s with
    | more t =>
      rw [hn] at h
      have ht := hcount s t hn
      have hs := ih h
      omega
    | done r => simp only [hn, reduceCtorEq] at h

/-- A loop whose counter cannot pass a bound ends within one step more than the bound. -/
theorem iterate_done_of_bounded {count : σ → Nat} {bound : Nat}
    (hstep : ∀ s s', Inv s → step s = .more s' → Inv s')
    (hcount : ∀ s s', step s = .more s' → count s' = count s + 1)
    (hbound : ∀ s, Inv s → count s ≤ bound) {s : σ} (hs : Inv s) :
    ∃ r, iterate step (1 + bound) s = .done r := by
  cases h : iterate step (1 + bound) s with
  | done r => exact ⟨r, rfl⟩
  | more t =>
    have hle := hbound t (iterate_more_invariant hstep hs h)
    have heq := iterate_more_count hcount h
    omega

end TapeReach.Loop
