import TapeReach.Graph.Basic
import TapeReach.Program.Labeling
import TapeReach.State.Order

/-!
# State graphs as DOT text

A state graph is written as a directed graph in the DOT language: an
invisible node that points to the initial state, one line for each node and
one for each edge. A node shows its positions, its fingerprint and the labels
that hold there; an edge shows the truth value of each label at its source.
Nodes whose transitions are missing are dashed.
-/

namespace TapeReach.Dot

/-- How a character is written inside a quoted text. -/
def escapeChar (c : Char) : List Char :=
  if c = '"' then ['\\', '"']
  else if c = '\\' then ['\\', '\\']
  else if c = '\n' then ['\\', 'n']
  else [c]

/-- A text for use between quotes. -/
def escape (text : String) : String := String.ofList (text.toList.flatMap escapeChar)

/-- The text of a node: the state and, if there are any, the labels that hold. -/
def nodeText (labeling : Labeling) (s : State) : String :=
  match labeling.propositionsAt s.pc with
  | [] => s.format
  | ids => s.format ++ "\n\x7b" ++ ", ".intercalate (ids.filterMap labeling.name?) ++ "\x7d"

/-- The text of an edge: each label, negated where it does not hold. -/
def edgeText (labeling : Labeling) (pc : Nat) : String :=
  match labeling.valuation pc with
  | [] => "1"
  | values => " & ".intercalate (values.map fun entry => if entry.2 then entry.1 else "!" ++ entry.1)

/-- The line of a node. -/
def nodeLine (labeling : Labeling) (id : Nat) (node : GraphNode State) : String :=
  let style := if node.expanded then "" else ", style=dashed"
  s!"  {id} [label=\"" ++ escape (nodeText labeling node.state) ++ "\"" ++ style ++ "]"

/-- The line of an edge. -/
def edgeLine (labeling : Labeling) (pc source target : Nat) : String :=
  s!"  {source} -> {target} [label=\"" ++ escape (edgeText labeling pc) ++ "\"]"

/-- The lines of all edges that leave a node. -/
def edgeLines (labeling : Labeling) (entry : GraphNode State × Nat) : List String :=
  entry.1.successors.map (edgeLine labeling entry.1.state.pc entry.2)

/-- The lines before the first node. -/
def header (graph : StateGraph State) : List String :=
  [ "digraph \"state graph\" \x7b",
    "  rankdir=LR",
    "  node [shape=box, fontname=\"monospace\"]",
    "  I [label=\"\", style=invis, width=0]",
    "  I -> 0" ] ++
  if graph.truncated then [s!"  label=\"truncated after {graph.size} states\""] else []

/-- All lines of the text. -/
def lines (graph : StateGraph State) (labeling : Labeling) : List String :=
  let nodes := graph.nodes.toList.zipIdx
  header graph ++ nodes.map (fun entry => nodeLine labeling entry.2 entry.1) ++
    nodes.flatMap (edgeLines labeling) ++ ["\x7d"]

/-- The text of a state graph. -/
def render (graph : StateGraph State) (labeling : Labeling) : String :=
  String.join ((lines graph labeling).map (· ++ "\n"))

end TapeReach.Dot
