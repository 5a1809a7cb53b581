import TapeReach.Graph.Basic
import TapeReach.Lasso.Search
import TapeReach.Program.Labeling
import TapeReach.Settings.Basic
import TapeReach.State.Order
import TapeReach.State.Space

/-!
# Checking programs

`checkReach` decides whether every run of a program reaches a label, and
`Program.explore` builds its state graph. Both loops are granted more
iterations than the finite state space of a program can use up.
-/

namespace TapeReach

/-- The answer of a check with its counters. -/
structure Analysis where
  /-- The answer. -/
  verdict : Verdict State
  /-- Counters of the search. -/
  stats : SearchStats
  deriving DecidableEq

/-- Rounds that suffice for a search: each reachable state takes one iteration to close
and one for each of at most 256 successors. -/
def Program.searchRounds (program : Program) (io : InputModel) : Nat := program.stateBits io + 9

/-- Search the state space of a program for a run that misses a target. -/
def Program.search (program : Program) (target : Target) (settings : Settings) (polls : Polls) :
    SearchResult State CheckError :=
  Search.run (program.stateSpace settings.io) target.holds settings.limits polls
    (program.searchRounds settings.io)

/-- The target of a check, once the label is known to exist and the program to be sound. -/
def Program.checkTarget (program : Program) (label : String) : Except CheckError Target := do
  let target ← (Labeling.ofProgram program).target label
  program.validate
  return target

/-- Decide whether every run of a program reaches a label. -/
def checkReach (program : Program) (label : String) (settings : Settings) (polls : Polls) :
    Except CheckError Analysis := do
  let target ← program.checkTarget label
  let result := program.search target settings polls
  let verdict ← result.verdict
  return ⟨verdict, result.stats⟩

/-- The state graph of a program, with at most `maxStates` nodes but at least one. -/
def Program.explore (program : Program) (io : InputModel) (maxStates : Option Nat) :
    Except CheckError (StateGraph State) :=
  (program.stateSpace io).explore maxStates (program.stateBits io + 1)

end TapeReach
