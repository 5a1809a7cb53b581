import TapeReach.Proofs.Graph.Quoted
import TapeReach.Proofs.Program.Propositions

/-!
# The text of a state graph

The text of a state graph is a list of lines, each ended by a line feed: a
header, one line for each node, one for each edge and a last line. Label names
may have any characters. Since they are written without line feeds and without
a quote that closes the label, the lines are those of the graph and each label
is read back, as the state and the names that hold there or as the truth values
of all names. A name is shown by the one that stands at its number, which is the
name itself as long as there are numbers enough.
-/

namespace TapeReach

section Names

variable {α β : Type} [DecidableEq α] [DecidableEq β]

/-- Where a function tells the members of a list apart, repeats can be removed before or after it
is applied. -/
theorem eraseDups_map {f : α → β} {xs : List α}
    (h : ∀ a ∈ xs, ∀ b ∈ xs, f a = f b → a = b) : (xs.map f).eraseDups = xs.eraseDups.map f := by
  induction hlength : xs.length using Nat.strong_induction_on generalizing xs with
  | _ n ih =>
    cases xs with
    | nil => rfl
    | cons a xs =>
      have hfilter : (xs.map f).filter (fun b => !b == f a) = (xs.filter fun b => !b == a).map f := by
        rw [List.filter_map]
        refine congrArg (List.map f) (List.filter_congr fun b hb => ?_)
        have hab := h b (List.mem_cons_of_mem a hb) a List.mem_cons_self
        rw [Function.comp_apply, Bool.eq_iff_iff, Bool.not_eq_true', Bool.not_eq_true',
          beq_eq_false_iff_ne, beq_eq_false_iff_ne]
        exact ⟨fun hne heq => hne (congrArg f heq), fun hne heq => hne (hab heq)⟩
      have hrest : ∀ b ∈ xs.filter fun b => !b == a, ∀ c ∈ xs.filter fun b => !b == a,
          f b = f c → b = c := fun b hb c hc =>
        h b (List.mem_cons_of_mem a (List.mem_of_mem_filter hb)) c
          (List.mem_cons_of_mem a (List.mem_of_mem_filter hc))
      have hshorter : (xs.filter fun b => !b == a).length < n := by
        have hle := List.length_filter_le (fun b => !b == a) xs
        rw [List.length_cons] at hlength
        omega
      rw [List.map_cons, List.eraseDups_cons, List.eraseDups_cons, List.map_cons, hfilter,
        ih _ hshorter hrest rfl]

end Names

namespace Dot

/-- The label names that hold at a position, each once and as the name that stands at its
number. -/
def namesAt (program : Program) (pc : Nat) : List String :=
  if pc ≤ program.size then ((program.labelsAt pc).map program.representative).eraseDups else []

/-- The text that a node shows: the state and the names that hold there, if there are any. -/
def caption (program : Program) (s : State) : String :=
  if namesAt program s.pc = [] then s.format
  else s.format ++ "\n\x7b" ++ ", ".intercalate (namesAt program s.pc) ++ "\x7d"

/-- The text that an edge shows: every name, negated unless it holds at the source. -/
def condition (program : Program) (pc : Nat) : String :=
  if program.propositions = [] then "1"
  else " & ".intercalate (program.propositions.map fun name =>
    if program.representative name ∈ namesAt program pc then name else "!" ++ name)

/-- A line shows a node: it begins with the number, and the label has the text of the node. Only a
node that is not expanded has a style. -/
structure ShowsNode (program : Program) (id : Nat) (node : GraphNode State) (line : List Char) :
    Prop where
  /-- The number of the node. -/
  number : s!"  {id} [".toList <+: line
  /-- The label and what stands behind it. -/
  label : labelOf? line = some ((caption program node.state).toList,
    (if node.expanded then "]" else ", style=dashed]").toList)

/-- A line shows an edge: it begins with the numbers of the nodes, and the label has the text of
the edge. -/
structure ShowsEdge (program : Program) (source target pc : Nat) (line : List Char) : Prop where
  /-- The numbers of the nodes. -/
  numbers : s!"  {source} -> {target} [".toList <+: line
  /-- The label and what stands behind it. -/
  label : labelOf? line = some ((condition program pc).toList, "]".toList)

/-- The lines of a text show a graph. -/
structure ShowsGraph (program : Program) (graph : StateGraph State) (lines : List (List Char)) :
    Prop where
  /-- There are six lines apart from nodes and edges, and one more when states were dropped. -/
  length : lines.length =
    6 + (if graph.truncated then 1 else 0) + graph.size + graph.edges.length
  /-- Each node has a line, in the order of the numbers. -/
  node : ∀ id node, graph.nodes[id]? = some node →
    ∃ line, lines[5 + (if graph.truncated then 1 else 0) + id]? = some line ∧
      ShowsNode program id node line
  /-- Behind them each edge has a line, in the order of the edges. -/
  edge : ∀ k source target, graph.edges[k]? = some (source, target) →
    ∃ node line, graph.nodes[source]? = some node ∧
      lines[5 + (if graph.truncated then 1 else 0) + graph.size + k]? = some line ∧
      ShowsEdge program source target node.state.pc line

section Texts

variable {program : Program} {pc : Nat}

/-- The names that hold at a position are attached to it, up to the end of the program. -/
theorem mem_namesAt {name : String} :
    name ∈ namesAt program pc ↔
      pc ≤ program.size ∧ ∃ other ∈ program.labelsAt pc, program.representative other = name := by
  unfold namesAt
  split
  · rename_i hpc
    rw [List.mem_eraseDups, List.mem_map, and_iff_right hpc]
  · rename_i hpc
    exact iff_of_false List.not_mem_nil fun h => hpc h.1

/-- The propositions at a position are the numbers of the names that hold there. -/
theorem propositionsAt_eq_map (program : Program) (pc : Nat) :
    (Labeling.ofProgram program).propositionsAt pc =
      (namesAt program pc).map program.numberOf := by
  rw [Labeling.propositionsAt_eq, namesAt]
  split
  · have hnumbers : (program.labelsAt pc).map program.numberOf =
        ((program.labelsAt pc).map program.representative).map program.numberOf := by
      rw [List.map_map]
      exact List.map_congr_left fun name hname =>
        (Program.numberOf_representative (Program.mem_propositions hname)).symm
    rw [hnumbers]
    refine eraseDups_map fun a ha b hb hab => ?_
    obtain ⟨name, hname, rfl⟩ := List.mem_map.mp ha
    obtain ⟨other, hother, rfl⟩ := List.mem_map.mp hb
    have hname' := Program.mem_propositions hname
    have hother' := Program.mem_propositions hother
    rw [Program.numberOf_representative hname', Program.numberOf_representative hother'] at hab
    exact (Program.representative_eq_iff hname' hother').mpr hab
  · rfl

/-- The names of the propositions at a position are those that hold there. -/
theorem filterMap_propositionsAt (program : Program) (pc : Nat) :
    ((Labeling.ofProgram program).propositionsAt pc).filterMap (Labeling.ofProgram program).name? =
      namesAt program pc := by
  rw [propositionsAt_eq_map, List.filterMap_map, List.filterMap_congr (g := some),
    List.filterMap_some]
  intro name hname
  obtain ⟨_, other, hother, rfl⟩ := mem_namesAt.mp hname
  have hmem := Program.mem_propositions hother
  rw [Function.comp_apply, Program.numberOf_representative hmem, Labeling.name?_numberOf hmem]

/-- The text of a node is made of the state and the names that hold there. -/
theorem nodeText_eq (program : Program) (s : State) :
    nodeText (Labeling.ofProgram program) s = caption program s := by
  have hnil : (Labeling.ofProgram program).propositionsAt s.pc = [] ↔ namesAt program s.pc = [] := by
    rw [propositionsAt_eq_map, List.map_eq_nil_iff]
  unfold nodeText caption
  split
  · rename_i h
    rw [if_pos (hnil.mp h)]
  · rename_i h
    rw [if_neg fun hnames => h (hnil.mpr hnames), filterMap_propositionsAt]

/-- The text of an edge is made of all names. -/
theorem edgeText_eq (program : Program) (pc : Nat) :
    edgeText (Labeling.ofProgram program) pc = condition program pc := by
  have hnil : (Labeling.ofProgram program).valuation pc = [] ↔ program.propositions = [] := by
    rw [Labeling.valuation_eq_number, List.map_eq_nil_iff]
  have hholds : ∀ name ∈ program.propositions,
      (pc ≤ program.size ∧
        ∃ other ∈ program.labelsAt pc, program.numberOf other = program.numberOf name) ↔
      program.representative name ∈ namesAt program pc := by
    intro name hname
    rw [mem_namesAt]
    refine and_congr_right fun _ => exists_congr fun other => and_congr_right fun hother => ?_
    exact (Program.representative_eq_iff (Program.mem_propositions hother) hname).symm
  unfold edgeText condition
  split
  · rename_i h
    rw [if_pos (hnil.mp h)]
  · rename_i h
    rw [if_neg fun hnames => h (hnil.mpr hnames), Labeling.valuation_eq_number, List.map_map]
    refine congrArg (" & ".intercalate) (List.map_congr_left fun name hname => ?_)
    simp only [Function.comp_apply, decide_eq_true_iff, hholds name hname]

end Texts

section Lines

/-- A number is written with digits. -/
theorem isDigit_of_mem_toString {n : Nat} {c : Char} (h : c ∈ (toString n).toList) :
    c.isDigit = true := by
  rw [Nat.toString_eq_repr, Nat.repr, String.toList_ofList] at h
  exact Nat.isDigit_of_mem_toDigits (by decide) (by decide) h

/-- A character of a line before its label: a digit, a blank, an arrow or a bracket. -/
def isPlain (c : Char) : Bool := c.isDigit || " ->[".toList.contains c

/-- A plain text neither begins a label nor ends the line. -/
theorem not_mem_of_all_isPlain {text : List Char} (h : text.all isPlain = true) :
    (∀ c ∈ text, c ≠ 'l') ∧ '\n' ∉ text := by
  rw [List.all_eq_true] at h
  constructor
  · rintro _ hc rfl
    exact absurd (h 'l' hc) (by decide)
  · intro hc
    exact absurd (h '\n' hc) (by decide)

/-- A number is plain. -/
theorem all_isPlain_toString (n : Nat) : (toString n).toList.all isPlain = true := by
  rw [List.all_eq_true]
  intro c hc
  rw [isPlain, isDigit_of_mem_toString hc, Bool.true_or]

/-- The line of a node is plain before its label. -/
theorem all_isPlain_number (id : Nat) : s!"  {id} [".toList.all isPlain = true := by
  have hblank : "  ".toList.all isPlain = true := by decide
  have hbracket : " [".toList.all isPlain = true := by decide
  simp only [String.toList_append, List.all_append, Bool.and_eq_true]
  exact ⟨⟨hblank, all_isPlain_toString id⟩, hbracket⟩

/-- The line of an edge is plain before its label. -/
theorem all_isPlain_numbers (source target : Nat) :
    s!"  {source} -> {target} [".toList.all isPlain = true := by
  have hblank : "  ".toList.all isPlain = true := by decide
  have harrow : " -> ".toList.all isPlain = true := by decide
  have hbracket : " [".toList.all isPlain = true := by decide
  simp only [String.toList_append, List.all_append, Bool.and_eq_true]
  exact ⟨⟨⟨⟨hblank, all_isPlain_toString source⟩, harrow⟩, all_isPlain_toString target⟩, hbracket⟩

/-- The line of a node has the text of the node as its label. -/
theorem toList_nodeLine (labeling : Labeling) (id : Nat) (node : GraphNode State) :
    (nodeLine labeling id node).toList =
      labelled s!"  {id} [".toList (nodeText labeling node.state).toList
        (if node.expanded then "]" else ", style=dashed]").toList := by
  have hmark : (toString " [label=\"").toList = (toString " [").toList ++ labelMark := rfl
  unfold nodeLine escape labelled
  simp only [String.toList_append, String.toList_ofList, hmark, List.append_assoc]
  cases node.expanded <;> rfl

/-- The line of an edge has the text of the edge as its label. -/
theorem toList_edgeLine (labeling : Labeling) (pc source target : Nat) :
    (edgeLine labeling pc source target).toList =
      labelled s!"  {source} -> {target} [".toList (edgeText labeling pc).toList "]".toList := by
  have hmark : (toString " [label=\"").toList = (toString " [").toList ++ labelMark := rfl
  unfold edgeLine escape labelled
  simp only [String.toList_append, String.toList_ofList, hmark, List.append_assoc]
  rfl

/-- The line of a node shows it. -/
theorem showsNode_nodeLine (program : Program) (id : Nat) (node : GraphNode State) :
    ShowsNode program id node (nodeLine (Labeling.ofProgram program) id node).toList := by
  rw [toList_nodeLine, nodeText_eq]
  exact
    { number := List.prefix_append _ _
      label := labelOf?_labelled (not_mem_of_all_isPlain (all_isPlain_number id)).1 _ _ }

/-- The line of an edge shows it. -/
theorem showsEdge_edgeLine (program : Program) (pc source target : Nat) :
    ShowsEdge program source target pc
      (edgeLine (Labeling.ofProgram program) pc source target).toList := by
  rw [toList_edgeLine, edgeText_eq]
  exact
    { numbers := List.prefix_append _ _
      label := labelOf?_labelled (not_mem_of_all_isPlain (all_isPlain_numbers source target)).1 _ _ }

/-- The lines before the first node have no line feed inside. -/
theorem feed_not_mem_header (graph : StateGraph State) :
    ∀ line ∈ header graph, '\n' ∉ line.toList := by
  have hfixed : ∀ line ∈ ["digraph \"state graph\" \x7b", "  rankdir=LR",
      "  node [shape=box, fontname=\"monospace\"]", "  I [label=\"\", style=invis, width=0]",
      "  I -> 0"], '\n' ∉ line.toList := by decide
  intro line hline
  rcases List.mem_append.mp hline with hline | hline
  · exact hfixed line hline
  · split at hline
    · rw [List.mem_singleton.mp hline]
      have hbefore : '\n' ∉ "  label=\"truncated after ".toList := by decide
      have hbehind : '\n' ∉ " states\"".toList := by decide
      have hnumber : '\n' ∉ (toString graph.size).toList := fun h =>
        absurd (isDigit_of_mem_toString h) (by decide)
      simp only [String.toList_append, List.mem_append, not_or]
      exact ⟨⟨hbefore, hnumber⟩, hbehind⟩
    · exact absurd hline List.not_mem_nil

/-- There are five lines before the first node, and one more when states were dropped. -/
theorem length_header (graph : StateGraph State) :
    (header graph).length = 5 + if graph.truncated then 1 else 0 := by
  unfold header
  split <;> rfl

/-- The lines of the text have no line feed inside. -/
theorem feed_not_mem_lines (graph : StateGraph State) (labeling : Labeling) :
    ∀ line ∈ lines graph labeling, '\n' ∉ line.toList := by
  intro line hline
  unfold lines at hline
  simp only [List.mem_append] at hline
  rcases hline with ((hline | hline) | hline) | hline
  · exact feed_not_mem_header graph line hline
  · obtain ⟨⟨node, id⟩, _, rfl⟩ := List.mem_map.mp hline
    rw [toList_nodeLine]
    refine feed_not_mem_labelled (not_mem_of_all_isPlain (all_isPlain_number id)).2 ?_
    split <;> decide
  · obtain ⟨⟨node, source⟩, _, hedge⟩ := List.mem_flatMap.mp hline
    obtain ⟨target, _, rfl⟩ := List.mem_map.mp hedge
    rw [toList_edgeLine]
    exact feed_not_mem_labelled (not_mem_of_all_isPlain (all_isPlain_numbers source target)).2
      (by decide)
  · rw [List.mem_singleton.mp hline]
    decide

/-- Lines that are each ended by a line feed are found again between the line feeds. -/
theorem splitOn_join {lines : List String} (h : ∀ line ∈ lines, '\n' ∉ line.toList) :
    (String.join (lines.map (· ++ "\n"))).toList.splitOn '\n' =
      lines.map String.toList ++ [[]] := by
  induction lines with
  | nil => rfl
  | cons line lines ih =>
    have hfeed : "\n".toList = ['\n'] := rfl
    rw [List.map_cons, String.join_cons, String.toList_append, String.toList_append, hfeed,
      List.append_assoc, List.singleton_append,
      List.splitOn_append_cons_self_of_not_mem (h line List.mem_cons_self),
      ih fun other hother => h other (List.mem_cons_of_mem line hother), List.map_cons,
      List.cons_append]

end Lines

section Graph

variable {graph : StateGraph State} {labeling : Labeling}

/-- The source of an edge is a node. -/
theorem exists_source {source target : Nat} (h : (source, target) ∈ graph.edges) :
    ∃ node, graph.nodes[source]? = some node := by
  obtain ⟨⟨node, id⟩, hnode, hedge⟩ := List.mem_flatMap.mp h
  obtain ⟨_, _, heq⟩ := List.mem_map.mp hedge
  cases heq
  exact ⟨node, by simpa only [List.mem_zipIdx_iff_getElem?, Array.getElem?_toList] using hnode⟩

/-- The position at a node. -/
def pcAt (graph : StateGraph State) (id : Nat) : Nat := (graph.nodes[id]?.map (·.state.pc)).getD 0

/-- The lines of the edges are in the order of the edges. -/
theorem flatMap_edgeLines (graph : StateGraph State) (labeling : Labeling) :
    graph.nodes.toList.zipIdx.flatMap (edgeLines labeling) =
      graph.edges.map fun edge => edgeLine labeling (pcAt graph edge.1) edge.1 edge.2 := by
  rw [StateGraph.edges, List.map_flatMap]
  refine List.flatMap_congr fun entry hentry => ?_
  have hnode : graph.nodes[entry.2]? = some entry.1 := by
    simpa only [List.mem_zipIdx_iff_getElem?, Array.getElem?_toList] using hentry
  rw [edgeLines, List.map_map, Function.comp_def]
  simp only [pcAt, hnode, Option.map_some, Option.getD_some]

/-- The lines of the text: those before the first node, one for each node, one for each edge and
the last one. -/
theorem lines_eq (graph : StateGraph State) (labeling : Labeling) :
    lines graph labeling =
      header graph ++
        graph.nodes.toList.zipIdx.map (fun entry => nodeLine labeling entry.2 entry.1) ++
        graph.edges.map (fun edge => edgeLine labeling (pcAt graph edge.1) edge.1 edge.2) ++
        ["\x7d"] := by
  rw [← flatMap_edgeLines]
  rfl

/-- The number of lines. -/
theorem length_lines (graph : StateGraph State) (labeling : Labeling) :
    (lines graph labeling).length =
      6 + (if graph.truncated then 1 else 0) + graph.size + graph.edges.length := by
  simp only [lines_eq, List.length_append, length_header, List.length_map, List.length_zipIdx,
    Array.length_toList, List.length_singleton, StateGraph.size]
  omega

/-- The line of a node stands behind the header and the lines of the nodes before it. -/
theorem getElem?_lines_node {id : Nat} {node : GraphNode State}
    (h : graph.nodes[id]? = some node) :
    (lines graph labeling)[(header graph).length + id]? = some (nodeLine labeling id node) := by
  have hlt : id < graph.nodes.size := (Array.getElem?_eq_some_iff.mp h).1
  rw [lines_eq, List.append_assoc, List.append_assoc,
    List.getElem?_append_right (Nat.le_add_right _ _), Nat.add_sub_cancel_left,
    List.getElem?_append_left (by simpa using hlt), List.getElem?_map, List.getElem?_zipIdx,
    Array.getElem?_toList, h]
  simp only [Option.map_some, Nat.zero_add]

/-- The line of an edge stands behind those of all nodes and of the edges before it. -/
theorem getElem?_lines_edge {k source target : Nat}
    (h : graph.edges[k]? = some (source, target)) :
    (lines graph labeling)[(header graph).length + graph.size + k]? =
      some (edgeLine labeling (pcAt graph source) source target) := by
  have hlt : k < graph.edges.length := (List.getElem?_eq_some_iff.mp h).1
  have hlength : (header graph ++ graph.nodes.toList.zipIdx.map fun entry =>
      nodeLine labeling entry.2 entry.1).length = (header graph).length + graph.size := by
    simp only [List.length_append, List.length_map, List.length_zipIdx, Array.length_toList,
      StateGraph.size]
  rw [lines_eq, List.append_assoc, ← hlength, List.getElem?_append_right (Nat.le_add_right _ _),
    Nat.add_sub_cancel_left, List.getElem?_append_left (by simpa using hlt), List.getElem?_map, h,
    Option.map_some]

/-- The text of a state graph, whatever characters the label names have: it ends with a line feed,
and cut at the line feeds it has six lines, one more when states were dropped, and one for each
node and each edge. The lines of the nodes are in the order of the numbers, those of the edges in
the order of the edges. Read up to its closing quote, the label of a line gives back the state and
the names that hold there, or the truth value of every name at the source of the edge. As long as
there are no more names than numbers, each name stands for itself. -/
theorem render_shows (program : Program) (graph : StateGraph State) :
    (∃ lines, (render graph (Labeling.ofProgram program)).toList.splitOn '\n' = lines ++ [[]] ∧
      ShowsGraph program graph lines) ∧
    (program.propositions.length ≤ UInt32.size →
      ∀ name ∈ program.propositions, program.representative name = name) := by
  refine ⟨⟨(lines graph (Labeling.ofProgram program)).map String.toList,
    splitOn_join (feed_not_mem_lines graph _), ?_⟩, fun hfew _ => Program.representative_eq hfew⟩
  refine ⟨?_, fun id node hnode => ?_, fun k source target hedge => ?_⟩
  · rw [List.length_map, length_lines]
  · refine ⟨_, ?_, showsNode_nodeLine program id node⟩
    rw [← length_header, List.getElem?_map, getElem?_lines_node hnode, Option.map_some]
  · obtain ⟨node, hnode⟩ := exists_source (List.mem_of_getElem? hedge)
    have hpc : pcAt graph source = node.state.pc := by
      rw [pcAt, hnode, Option.map_some, Option.getD_some]
    refine ⟨node, _, hnode, ?_, showsEdge_edgeLine program node.state.pc source target⟩
    rw [← length_header, List.getElem?_map, getElem?_lines_edge hedge, hpc, Option.map_some]

-- A name that has a quote and ends in a backslash.
example : labelOf? "  0 [label=\"a\\\\\\\"b\\\\\", style=dashed]".toList =
    some ("a\\\"b\\".toList, ", style=dashed]".toList) := by decide

end Graph

end Dot

end TapeReach
