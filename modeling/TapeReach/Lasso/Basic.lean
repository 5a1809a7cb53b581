/-!
# Lassos

A run that avoids a label for ever is shown as a lasso: a stem from the
initial state, followed by a cycle. Either the last state of the cycle leads
back to the first one, or the cycle is a single state without successors, at
which the run stops.
-/

namespace TapeReach

/-- How a lasso ends. -/
inductive LassoKind where
  /-- The last state of the cycle leads back to the first one. -/
  | cycle
  /-- The only state of the cycle has no successor. -/
  | deadEnd
  deriving DecidableEq

/-- The word for the kind. -/
def LassoKind.word : LassoKind → String
  | cycle => "cycle"
  | deadEnd => "dead_end"

/-- A run in the shape of a lasso. -/
structure Lasso (σ : Type) where
  /-- The states before the cycle, in order. -/
  stem : List σ
  /-- The states that are repeated, or the one that is final. -/
  cycle : List σ
  /-- How the lasso ends. -/
  kind : LassoKind
  deriving DecidableEq

namespace Lasso

variable {σ : Type}

/-- All states, the stem first. -/
def states (lasso : Lasso σ) : List σ := lasso.stem ++ lasso.cycle

/-- Number of states. -/
def length (lasso : Lasso σ) : Nat := lasso.stem.length + lasso.cycle.length

end Lasso

end TapeReach
