import TapeReach.Duration
import TapeReach.InputModel
import TapeReach.Lasso.Search

/-!
# Settings of a check

Everything that shapes a check apart from the program: the label, the input
model, and how much of the state space may be visited.
-/

namespace TapeReach

/-- Settings of a check. -/
structure Settings where
  /-- The label that every run should reach. -/
  label : Option String := none
  /-- How reads behave. -/
  io : InputModel := {}
  /-- Number of distinct states that may be visited. -/
  maxStates : Option Nat := none
  /-- Time after which the search stops. -/
  timeLimit : Option Duration := none
  /-- Expansions between two notes on progress, none if zero. -/
  progressInterval : Nat := 100000
  /-- Number of workers that build a state graph. -/
  graphWorkers : Option Nat := none
  deriving DecidableEq

/-- The bounds on a search. -/
def Settings.limits (settings : Settings) : Limits :=
  ⟨settings.maxStates, settings.timeLimit⟩

end TapeReach
