import Std.Data.HashMap
import Std.Data.HashSet
import TapeReach.Loop
import TapeReach.TransitionSystem

/-!
# State graphs

The graph of the states that can be reached is built level by level. The new
states of a level are collected once each, sorted, and numbered in that order,
so the numbering follows the distance from the initial state and then the
order of the states. A limit on the number of nodes cuts the last level
short; edges to states that were dropped are left out.
-/

namespace TapeReach

/-- A state of the graph. -/
structure GraphNode (σ : Type) where
  /-- The state. -/
  state : σ
  /-- Its distance from the initial state. -/
  depth : Nat
  /-- Whether its transitions are in the graph. -/
  expanded : Bool := false
  /-- The nodes its transitions lead to, in order. -/
  successors : List Nat := []

/-- The states that can be reached and their transitions. -/
structure StateGraph (σ : Type) [BEq σ] [Hashable σ] where
  /-- The nodes by number. -/
  nodes : Array (GraphNode σ) := #[]
  /-- The number of each state. -/
  index : Std.HashMap σ Nat := ∅
  /-- Whether states were dropped. -/
  truncated : Bool := false

namespace StateGraph

variable {σ ε : Type} [BEq σ] [Hashable σ]

/-- Number of nodes. -/
def size (graph : StateGraph σ) : Nat := graph.nodes.size

/-- The number of a state. -/
def find? (graph : StateGraph σ) (state : σ) : Option Nat := graph.index[state]?

/-- All transitions as pairs of numbers, by source and then in order. -/
def edges (graph : StateGraph σ) : List (Nat × Nat) :=
  graph.nodes.toList.zipIdx.flatMap fun entry => entry.1.successors.map (entry.2, ·)

/-- Number the next state. -/
def push (graph : StateGraph σ) (depth : Nat) (state : σ) : StateGraph σ :=
  let id := graph.nodes.size
  { graph with
    index := graph.index.insert state id
    nodes := graph.nodes.push { state, depth } }

/-- Enter the transitions of a node; those to states without a number are left out. -/
def link (graph : StateGraph σ) (id : Nat) (successors : List σ) : StateGraph σ :=
  let targets := successors.filterMap graph.find?
  { graph with
    nodes := graph.nodes.modify id fun node =>
      { node with expanded := true, successors := targets } }

/-- Collect a state unless it has been seen. -/
def collect (graph : StateGraph σ) (found : Std.HashSet σ × List σ) (state : σ) :
    Std.HashSet σ × List σ :=
  if graph.index.contains state || found.1.contains state then found
  else (found.1.insert state, state :: found.2)

/-- The states of a list that have no number yet, once each. -/
def fresh (graph : StateGraph σ) (states : List σ) : List σ :=
  (states.foldl graph.collect (∅, [])).2

end StateGraph

/-- A graph under construction. -/
structure Explorer (σ : Type) [BEq σ] [Hashable σ] where
  /-- The graph so far. -/
  graph : StateGraph σ
  /-- The nodes of the last level, with their states. -/
  frontier : List (Nat × σ)
  /-- The distance of the last level. -/
  depth : Nat

namespace Explorer

variable {σ ε : Type} [BEq σ] [Hashable σ] [Ord σ]

/-- Only the initial state. -/
def start (initial : σ) : Explorer σ := ⟨({} : StateGraph σ).push 0 initial, [(0, initial)], 0⟩

/-- The states that still fit under a limit beside `size` nodes. -/
def keep (maxStates : Option Nat) (size : Nat) (states : List σ) : List σ :=
  match maxStates with
  | some limit => states.take (limit - size)
  | none => states

/-- Add the level behind the last one, given the successors of each of its nodes and the new
states among them. -/
def settle (maxStates : Option Nat) : Explorer σ → List (List σ) → List σ → Explorer σ
  | ⟨graph, frontier, depth⟩, lists, new =>
    let fresh := new.mergeSort fun a b => (compare a b).isLE
    let kept := keep maxStates graph.size fresh
    let level := (kept.zipIdx graph.size).map Prod.swap
    let grown := kept.foldl (fun graph state => graph.push (depth + 1) state) graph
    let linked := (frontier.zip lists).foldl
      (fun graph entry => graph.link entry.1.1 entry.2) grown
    ⟨{ linked with truncated := kept.length < fresh.length }, level, depth + 1⟩

/-- Add the level behind the last one, given the successors of each of its nodes. -/
def extend (maxStates : Option Nat) (s : Explorer σ) (lists : List (List σ)) : Explorer σ :=
  s.settle maxStates lists (s.graph.fresh lists.flatten)

/-- One level. The graph is complete when a level is empty or was cut short. -/
def step (system : TransitionSystem σ ε) (maxStates : Option Nat) (s : Explorer σ) :
    Loop.Step (Explorer σ) (Except ε (StateGraph σ)) :=
  if s.frontier.isEmpty || s.graph.truncated then .done (.ok s.graph)
  else
    match s.frontier.mapM fun entry => system.successors entry.2 with
    | .error e => .done (.error e)
    | .ok lists => .more (s.extend maxStates lists)

end Explorer

/-- The graph of a system, with at most `maxStates` nodes but at least one, and
`2 ^ rounds - 1` levels at most. A graph whose levels run out counts as truncated. -/
def TransitionSystem.explore {σ ε : Type} [BEq σ] [Hashable σ] [Ord σ]
    (system : TransitionSystem σ ε) (maxStates : Option Nat) (rounds : Nat) :
    Except ε (StateGraph σ) :=
  match Loop.rounds (Explorer.step system maxStates) rounds 1 (.start system.initial) with
  | .done result => result
  | .more s => .ok { s.graph with truncated := true }

end TapeReach
