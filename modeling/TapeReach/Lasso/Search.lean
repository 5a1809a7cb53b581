import Std.Data.HashMap
import Std.Data.HashSet
import TapeReach.Duration
import TapeReach.Lasso.Basic
import TapeReach.Loop
import TapeReach.TransitionSystem

/-!
# Search for a run that avoids a target

A depth-first search walks through the states that do not satisfy a target.
Target states are never entered, so each path that the search holds avoids
the target. A state that is on the current path again closes a cycle, and a
state without successors ends a run: both are lassos that refute "every run
reaches the target". When the search has closed every state without meeting
one, every run reaches it.

The loop state is a plain value and one iteration a plain function. Clock and
cancellation are asked once in 256 iterations; their answers are arguments of
the search.
-/

namespace TapeReach

/-- Why a search stopped without an answer. -/
inductive StopReason where
  /-- The number of states that may be visited is used up. -/
  | stateLimit (limit : Nat)
  /-- The time is up. -/
  | timeLimit (limit : Duration)
  /-- The search was called off. -/
  | cancelled
  /-- The number of iterations granted to the loop is used up. -/
  | iterationLimit
  deriving DecidableEq

/-- The reason in words. -/
def StopReason.message : StopReason → String
  | stateLimit limit => s!"state limit of {limit} reached"
  | timeLimit limit => "time limit of " ++ limit.text ++ " reached"
  | cancelled => "cancelled"
  | iterationLimit => "iteration limit reached"

/-- Bounds on a search; an absent one does not bind. -/
structure Limits where
  /-- Number of distinct states that may be visited. -/
  maxStates : Option Nat := none
  /-- Time after which the search stops. -/
  timeLimit : Option Duration := none
  deriving DecidableEq

/-- The reason to stop before a further state, when `visited` states have been found. -/
def Limits.forbid? (limits : Limits) (visited : Nat) : Option StopReason :=
  match limits.maxStates with
  | some limit => if limit ≤ visited then some (.stateLimit limit) else none
  | none => none

/-- What a search is told when it asks for the `n`-th time. -/
structure Polls where
  /-- Whether the search has been called off. -/
  cancelled : Nat → Bool := fun _ => false
  /-- The time since the start of the search. -/
  elapsed : Nat → Duration := fun _ => ⟨0⟩

/-- Counters of a search. -/
structure SearchStats where
  /-- States whose successors were computed. -/
  expanded : Nat := 0
  /-- Distinct states found. -/
  visited : Nat := 0
  /-- Length of the longest path held. -/
  maxDepth : Nat := 0
  deriving DecidableEq

/-- The answer of a search. -/
inductive Verdict (σ : Type) where
  /-- Every run reaches the target. -/
  | unavoidable
  /-- This run does not. -/
  | counterexample (lasso : Lasso σ)
  /-- There is no answer, for this reason. -/
  | incomplete (reason : StopReason)
  deriving DecidableEq

/-- Where a search stands. -/
inductive SearchPhase where
  /-- It has not ended. -/
  | exploring
  /-- It has found a lasso. -/
  | found
  /-- It has closed every state. -/
  | exhausted
  /-- It was stopped. -/
  | stopped
  deriving DecidableEq

/-- The word for the phase. -/
def SearchPhase.word : SearchPhase → String
  | exploring => "exploring"
  | found => "found"
  | exhausted => "exhausted"
  | stopped => "stopped"

/-- How a search ended. -/
structure SearchResult (σ ε : Type) where
  /-- The answer, or why the successors of a state are not known. -/
  verdict : Except ε (Verdict σ)
  /-- Counters up to the end. -/
  stats : SearchStats

/-- The phase in which a search is left; one that failed has not ended. -/
def SearchResult.phase {σ ε : Type} (result : SearchResult σ ε) : SearchPhase :=
  match result.verdict with
  | .error _ => .exploring
  | .ok .unavoidable => .exhausted
  | .ok (.counterexample _) => .found
  | .ok (.incomplete _) => .stopped

/-- A state on the current path with the successors that have not been tried. -/
structure Frame (σ : Type) where
  /-- The state. -/
  state : σ
  /-- Its successors that have not been tried, in order. -/
  pending : List σ

/-- A search between two iterations. -/
structure Search (σ : Type) [BEq σ] [Hashable σ] where
  /-- The current path, the initial state first. -/
  stack : Array (Frame σ) := #[]
  /-- The index of each state of the current path. -/
  onStack : Std.HashMap σ Nat := ∅
  /-- The states all of whose successors have been tried. -/
  closed : Std.HashSet σ := ∅
  /-- Counters up to here. -/
  stats : SearchStats := {}
  /-- Number of iterations up to here. -/
  iterations : Nat := 0

namespace Search

variable {σ ε : Type} [BEq σ] [Hashable σ]

/-- Number of iterations between two polls. -/
def pollInterval : Nat := 256

/-- The states of the current path. -/
def path (s : Search σ) : List σ := s.stack.toList.map Frame.state

/-- The reason to stop that a poll gives, cancellation before time. -/
def poll? (limits : Limits) (polls : Polls) (iterations : Nat) : Option StopReason :=
  if iterations % pollInterval = 0 then
    let n := iterations / pollInterval
    if polls.cancelled n then some .cancelled
    else
      match limits.timeLimit with
      | some limit =>
        if limit.nanoseconds ≤ (polls.elapsed n).nanoseconds then some (.timeLimit limit) else none
      | none => none
  else none

/-- End with an answer. -/
def answer (s : Search σ) (verdict : Verdict σ) : Loop.Step (Search σ) (SearchResult σ ε) :=
  .done ⟨.ok verdict, s.stats⟩

/-- Put a state with successors at the end of the path. -/
def push (s : Search σ) (state : σ) (successors : List σ) : Search σ :=
  let index := s.stack.size
  { s with
    onStack := s.onStack.insert state index
    stats.maxDepth := max s.stats.maxDepth (index + 1)
    stack := s.stack.push ⟨state, successors⟩ }

/-- Expand a state that has just been found. Without successors it is a dead end of
the path; otherwise it joins the path. -/
def enter (system : TransitionSystem σ ε) (s : Search σ) (state : σ) :
    Loop.Step (Search σ) (SearchResult σ ε) :=
  let s := { s with stats.visited := s.stats.visited + 1 }
  match system.successors state with
  | .error e => .done ⟨.error e, s.stats⟩
  | .ok successors =>
    let s := { s with stats.expanded := s.stats.expanded + 1 }
    if successors.isEmpty then s.answer (.counterexample ⟨s.path, [state], .deadEnd⟩)
    else .more (s.push state successors)

/-- Leave the last state of the path, all of whose successors have been tried. -/
def close (s : Search σ) (state : σ) : Search σ :=
  { s with
    stack := s.stack.pop
    onStack := s.onStack.erase state
    closed := s.closed.insert state }

/-- Try a successor of the last state of the path. -/
def consider (system : TransitionSystem σ ε) (isTarget : σ → Bool) (limits : Limits)
    (s : Search σ) (next : σ) : Loop.Step (Search σ) (SearchResult σ ε) :=
  if isTarget next then .more s
  else
    match s.onStack[next]? with
    | some index =>
      s.answer (.counterexample ⟨s.path.take index, s.path.drop index, .cycle⟩)
    | none =>
      if s.closed.contains next then .more s
      else
        match limits.forbid? s.stats.visited with
        | some reason => s.answer (.incomplete reason)
        | none => s.enter system next

/-- One iteration: poll, then try the next successor of the last state of the path or,
when it has none left, close that state. -/
def step (system : TransitionSystem σ ε) (isTarget : σ → Bool) (limits : Limits) (polls : Polls)
    (s : Search σ) : Loop.Step (Search σ) (SearchResult σ ε) :=
  match poll? limits polls s.iterations with
  | some reason => s.answer (.incomplete reason)
  | none =>
    let s := { s with iterations := s.iterations + 1 }
    match s.stack.back? with
    | none => s.answer .unavoidable
    | some frame =>
      match frame.pending with
      | [] => .more (s.close frame.state)
      | next :: rest =>
        let s := { s with stack := s.stack.pop.push ⟨frame.state, rest⟩ }
        s.consider system isTarget limits next

/-- The search at its first iteration, unless the initial state already decides. -/
def start (system : TransitionSystem σ ε) (isTarget : σ → Bool) :
    Loop.Step (Search σ) (SearchResult σ ε) :=
  if isTarget system.initial then .done ⟨.ok .unavoidable, { visited := 1 }⟩
  else enter system {} system.initial

/-- Search, with `2 ^ rounds - 1` iterations of the loop at most. -/
def run (system : TransitionSystem σ ε) (isTarget : σ → Bool) (limits : Limits) (polls : Polls)
    (rounds : Nat) : SearchResult σ ε :=
  match start system isTarget with
  | .done result => result
  | .more s =>
    match Loop.rounds (step system isTarget limits polls) rounds 1 s with
    | .done result => result
    | .more s => ⟨.ok (.incomplete .iterationLimit), s.stats⟩

end Search

end TapeReach
