/-!
# Transition systems

The search for a lasso and the construction of the state graph work on any
system with an initial state and a list of successors for each state. The
list may repeat a state, and computing it may fail.
-/

namespace TapeReach

/-- States of type `σ` and the transitions between them. -/
structure TransitionSystem (σ ε : Type) where
  /-- Where every run starts. -/
  initial : σ
  /-- The states that may follow, in order, or why they are not known. -/
  successors : σ → Except ε (List σ)

end TapeReach
