/-!
# Loops with a bounded number of iterations

A loop is a step function: from a state it either goes on with another state
or is done with a result. `iterate` runs at most a given number of steps.
`rounds` runs `2 ^ k - 1` steps as `k` rounds of doubling length, so that a
bound with many thousands of bits costs nothing to count down.
-/

namespace TapeReach.Loop

/-- What one step of a loop leads to. -/
inductive Step (σ ρ : Type) where
  /-- Go on with this state. -/
  | more (state : σ)
  /-- The loop has ended with this result. -/
  | done (result : ρ)

variable {σ ρ : Type}

/-- Take at most `n` steps. -/
def iterate (step : σ → Step σ ρ) : Nat → σ → Step σ ρ
  | 0, s => .more s
  | n + 1, s =>
    match step s with
    | .more s => iterate step n s
    | .done r => .done r

/-- Take `k` rounds of steps, the first of `length` steps and each of the others
twice as long as the one before it. -/
def rounds (step : σ → Step σ ρ) : (k length : Nat) → σ → Step σ ρ
  | 0, _, s => .more s
  | k + 1, length, s =>
    match iterate step length s with
    | .more s => rounds step k (2 * length) s
    | .done r => .done r

end TapeReach.Loop
