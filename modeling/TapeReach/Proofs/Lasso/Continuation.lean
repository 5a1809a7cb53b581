import Mathlib.Data.List.Chain
import Mathlib.Data.List.Forall2
import TapeReach.Proofs.Lasso.Report

/-!
# The program behind a lasso

The pieces behind a lasso are gathered position by position: symbols wait until
the label is met or the program ends. Every position but the last one has an
instruction, so there is code between any two labels, and symbols are only put
out at a label or at the end, so there is a label between any two pieces of
code. Put together, the pieces are the rest of the program with the label
marked at each of its positions.
-/

namespace TapeReach

namespace Piece

/-- Whether the piece holds instructions. -/
def isCode : Piece → Bool
  | code _ => true
  | label _ => false

/-- The instructions of the piece; a label holds none. -/
def symbols : Piece → String
  | code symbols => symbols
  | label _ => ""

/-- The piece is some code or the label that was missed. -/
def IsPart (missed : String) : Piece → Prop
  | code symbols => symbols ≠ ""
  | label name => name = missed

/-- Code and labels follow each other in turn. -/
def Alternating (pieces : List Piece) : Prop := pieces.IsChain fun a b => a.isCode ≠ b.isCode

end Piece

namespace Report

variable {program : Program} {label : String} {code : List Char} {positions : List Nat}

/-- The symbol at a position, if it has an instruction. -/
def symbolsAt (program : Program) (pc : Nat) : List Char :=
  (program.instructionAt? pc).toList.map Instruction.symbol

/-- What is shown of a position: the label between its marks, if it sits there, and the symbol
of the instruction. -/
def shownAt (program : Program) (label : String) (pc : Nat) : String :=
  (if label ∈ program.labelsAt pc then "_" ++ label ++ "_" else "") ++
    String.ofList (symbolsAt program pc)

/-- A position adds its symbol to those that wait, or the label puts them out. -/
theorem piecesFrom_cons (code : List Char) (pc : Nat) (rest : List Nat) :
    piecesFrom program label code (pc :: rest) =
      if label ∈ program.labelsAt pc then
        codePiece code ++ .label label :: piecesFrom program label (symbolsAt program pc) rest
      else piecesFrom program label (symbolsAt program pc ++ code) rest := by
  simp only [piecesFrom, List.contains_iff_mem]
  rfl

/-- Symbols that wait are put out as one piece. -/
theorem codePiece_of_ne_nil (h : code ≠ []) :
    codePiece code = [.code (String.ofList code.reverse)] := by
  cases code with
  | nil => exact absurd rfl h
  | cons c code => rfl

section Parts

/-- A piece of code is not empty. -/
theorem isPart_of_mem_codePiece {piece : Piece} (h : piece ∈ codePiece code) :
    piece.IsPart label := by
  have hcode : code ≠ [] := by
    rintro rfl
    cases h
  rw [codePiece_of_ne_nil hcode, List.mem_singleton] at h
  subst h
  intro hempty
  have hnil : code.reverse = "".toList := by rw [← hempty, String.toList_ofList]
  exact hcode (List.reverse_eq_nil_iff.mp hnil)

/-- All pieces are code or the label. -/
theorem isPart_of_mem_piecesFrom {piece : Piece}
    (h : piece ∈ piecesFrom program label code positions) : piece.IsPart label := by
  induction positions generalizing code with
  | nil => exact isPart_of_mem_codePiece h
  | cons pc rest ih =>
    rw [piecesFrom_cons] at h
    split at h
    · rcases List.mem_append.mp h with hbefore | hbehind
      · exact isPart_of_mem_codePiece hbefore
      · rcases List.mem_cons.mp hbehind with hlabel | hbehind
        · rw [hlabel]
          rfl
        · exact ih hbehind
    · exact ih h

end Parts

section Alternation

/-- If symbols wait or there is nothing to come, then the first piece is code. -/
theorem isCode_of_mem_head?_piecesFrom (hwait : code ≠ [] ∨ positions = []) :
    ∀ piece ∈ (piecesFrom program label code positions).head?, piece.isCode = true := by
  induction positions generalizing code with
  | nil =>
    intro piece hpiece
    cases code with
    | nil => cases hpiece
    | cons c code =>
      cases hpiece
      rfl
  | cons pc rest ih =>
    have hne : code ≠ [] := hwait.resolve_right (List.cons_ne_nil pc rest)
    rw [piecesFrom_cons]
    split
    · intro piece hpiece
      rw [codePiece_of_ne_nil hne] at hpiece
      cases hpiece
      rfl
    · exact ih (.inl (List.append_ne_nil_of_right_ne_nil _ hne))

/-- If every position but the last one has an instruction, then code and labels follow each
other in turn. -/
theorem alternating_piecesFrom (hpos : ∀ pc ∈ positions.dropLast, pc < program.size) :
    Piece.Alternating (piecesFrom program label code positions) := by
  induction positions generalizing code with
  | nil =>
    cases code with
    | nil => exact .nil
    | cons c code => exact .singleton _
  | cons pc rest ih =>
    have hrest : ∀ p ∈ rest.dropLast, p < program.size := by
      intro p hp
      have hne : rest ≠ [] := by
        rintro rfl
        cases hp
      apply hpos
      rw [List.dropLast_cons_of_ne_nil hne]
      exact List.mem_cons_of_mem pc hp
    rw [piecesFrom_cons]
    split
    · -- The symbol at the label waits, so code comes next unless this is the last position.
      have hwait : symbolsAt program pc ≠ [] ∨ rest = [] := by
        cases rest with
        | nil => exact .inr rfl
        | cons next rest => exact .inl (symbolAt_ne_nil_iff.mpr (hpos pc List.mem_cons_self))
      have hbehind : Piece.Alternating
          (.label label :: piecesFrom program label (symbolsAt program pc) rest) := by
        apply List.IsChain.cons (ih hrest)
        intro piece hpiece
        rw [isCode_of_mem_head?_piecesFrom hwait piece hpiece]
        exact Bool.false_ne_true
      cases code with
      | nil => exact hbehind
      | cons c code => exact .cons_cons (Ne.symm Bool.false_ne_true) hbehind
    · exact ih hrest

end Alternation

section Text

/-- Let code stand for itself. Then the characters of all pieces are those that wait and those
of the positions. -/
theorem flatMap_piecesFrom {chars : Piece → List Char}
    (hchars : ∀ symbols, chars (.code symbols) = symbols.toList) :
    (piecesFrom program label code positions).flatMap chars =
      code.reverse ++ positions.flatMap fun pc =>
        (if label ∈ program.labelsAt pc then chars (.label label) else []) ++
          symbolsAt program pc := by
  have hcode : ∀ code, (codePiece code).flatMap chars = code.reverse := by
    intro code
    cases code with
    | nil => rfl
    | cons c code =>
      rw [codePiece_of_ne_nil (List.cons_ne_nil c code), List.flatMap_singleton, hchars,
        String.toList_ofList]
  have hsymbol : ∀ pc, (symbolsAt program pc).reverse = symbolsAt program pc := by
    intro pc
    unfold symbolsAt
    cases program.instructionAt? pc <;> rfl
  induction positions generalizing code with
  | nil =>
    rw [List.flatMap_nil, List.append_nil]
    exact hcode code
  | cons pc rest ih =>
    rw [piecesFrom_cons, List.flatMap_cons]
    split
    · rw [List.flatMap_append, List.flatMap_cons, hcode, ih, hsymbol, List.append_assoc]
    · rw [ih, List.reverse_append, hsymbol, List.append_assoc, List.nil_append]

/-- The code of the pieces is what waits and the symbols at the positions. -/
theorem join_symbols_piecesFrom :
    String.join ((piecesFrom program label code positions).map Piece.symbols) =
      String.ofList (code.reverse ++ positions.flatMap (symbolsAt program)) := by
  apply String.toList_inj.mp
  rw [String.toList_join, List.flatMap_map, String.toList_ofList, flatMap_piecesFrom fun _ => rfl]
  have hnone : (Piece.label label).symbols.toList = [] := rfl
  simp only [hnone, ite_self, List.nil_append]

/-- The text of the pieces is what waits and what is shown of the positions. -/
theorem join_text_piecesFrom :
    String.join ((piecesFrom program label code positions).map Piece.text) =
      String.ofList code.reverse ++ String.join (positions.map (shownAt program label)) := by
  have hshown : ∀ pc, (shownAt program label pc).toList =
      (if label ∈ program.labelsAt pc then (Piece.label label).text.toList else []) ++
        symbolsAt program pc := by
    intro pc
    rw [shownAt, String.toList_append, String.toList_ofList]
    split
    · rw [Piece.text, String.toList_ofList, String.toList_append, String.toList_append]
      rfl
    · rfl
  apply String.toList_inj.mp
  rw [String.toList_join, List.flatMap_map, flatMap_piecesFrom fun _ => rfl, String.toList_append,
    String.toList_ofList, String.toList_join, List.flatMap_map]
  simp only [hshown]

end Text

section Positions

/-- All positions but the halting one are those of instructions. -/
theorem lt_size_of_mem_dropLast_positionsFrom {start pc : Nat} (hstart : start ≤ program.size)
    (h : pc ∈ (positionsFrom program start).dropLast) : pc < program.size := by
  rw [positionsFrom, List.range'_concat, List.dropLast_concat] at h
  have hrange := List.mem_range'_1.mp h
  omega

/-- The elements at a range of positions are a part of the list. -/
theorem flatMap_getElem?_range' {α : Type} (elements : List α) (start count : Nat) :
    (List.range' start count).flatMap (fun k => elements[k]?.toList) =
      (elements.drop start).take count := by
  induction count with
  | zero => rfl
  | succ count ih =>
    rw [List.range'_concat, List.flatMap_append, ih, List.take_add_one, List.getElem?_drop,
      List.flatMap_singleton, Nat.one_mul]

/-- Up to the halting position the symbols are those of the rest of the program. -/
theorem flatMap_symbolsAt_positionsFrom (program : Program) (start : Nat) :
    (positionsFrom program start).flatMap (symbolsAt program) =
      (program.instructions.toList.drop start).map Instruction.symbol := by
  have hat : symbolsAt program = fun pc =>
      (program.instructions.toList[pc]?).toList.map Instruction.symbol := by
    funext pc
    rw [symbolsAt, Program.instructionAt?, Array.getElem?_toList]
  have hall : (program.instructions.toList.drop start).length ≤ program.size - start + 1 := by
    rw [List.length_drop]
    exact Nat.le_succ _
  rw [hat, ← List.map_flatMap, positionsFrom, flatMap_getElem?_range',
    List.take_of_length_le hall]

end Positions

/-- The symbol is the one of the instruction that the state is about to execute, or the dollar
sign if the state has halted. -/
structure IsSymbolOf (program : Program) (s : State) (c : Char) : Prop where
  /-- A state about to execute an instruction has its symbol. -/
  symbol : ∀ i, program.instructionAt? s.pc = some i → c = i.symbol
  /-- The dollar sign is kept for states that have halted. -/
  halted : c = '$' ↔ program.size ≤ s.pc

/-- Each state has its symbol. -/
theorem isSymbolOf_symbolOf (program : Program) (s : State) :
    IsSymbolOf program s (symbolOf program s) := by
  unfold symbolOf
  cases hi : program.instructionAt? s.pc with
  | none =>
    have hhalted : program.size ≤ s.pc := Array.getElem?_eq_none_iff.mp hi
    constructor
    case symbol =>
      intro j hj
      rw [hi] at hj
      cases hj
    case halted => exact iff_of_true rfl hhalted
  | some i =>
    have hpc : s.pc < program.size := (Array.getElem?_eq_some_iff.mp hi).1
    have hne : i.symbol ≠ '$' := by cases i <;> decide
    constructor
    case symbol =>
      intro j hj
      rw [hi] at hj
      cases hj
      rfl
    case halted => exact iff_of_false hne (Nat.not_le.mpr hpc)

/-- The symbols of some states are one for each. -/
theorem forall₂_symbols (program : Program) (states : List State) :
    List.Forall₂ (IsSymbolOf program) states (symbols program states).toList := by
  rw [symbols, String.toList_ofList, List.forall₂_map_right_iff, List.forall₂_same]
  exact fun s _ => isSymbolOf_symbolOf program s

/-- What a report shows behind a lasso is the program from a position on, for a label. -/
structure ShowsFrom (program : Program) (label : String) (start : Nat) (report : Report) :
    Prop where
  /-- Code and labels follow each other in turn. -/
  alternating : Piece.Alternating report.continuation
  /-- No piece of code is empty. -/
  code_ne : ∀ symbols, .code symbols ∈ report.continuation → symbols ≠ ""
  /-- No other label is shown. -/
  label_eq : ∀ name, .label name ∈ report.continuation → name = label
  /-- The code is that of the instructions from the position on. -/
  code : String.join (report.continuation.map Piece.symbols) =
    String.ofList ((program.instructions.toList.drop start).map Instruction.symbol)
  /-- The text shows every position, up to and with the halting one. -/
  text : report.continuationText =
    String.join ((List.range' start (program.size + 1 - start)).map (shownAt program label))

/-- The pieces from a position within the program on, or from its end, show the program from
there. -/
theorem showsFrom_of_continuation {report : Report} {start : Nat} (hstart : start ≤ program.size)
    (hpieces : report.continuation =
      piecesFrom program label [] (positionsFrom program start)) :
    ShowsFrom program label start report := by
  have hpositions : positionsFrom program start =
      List.range' start (program.size + 1 - start) := by
    rw [positionsFrom, Nat.sub_add_comm hstart]
  constructor
  case alternating =>
    rw [hpieces]
    exact alternating_piecesFrom fun pc => lt_size_of_mem_dropLast_positionsFrom hstart
  case code_ne =>
    rw [hpieces]
    exact fun symbols h => isPart_of_mem_piecesFrom h
  case label_eq =>
    rw [hpieces]
    exact fun name h => isPart_of_mem_piecesFrom h
  case code =>
    rw [hpieces, join_symbols_piecesFrom, flatMap_symbolsAt_positionsFrom]
    rfl
  case text =>
    rw [continuationText, hpieces, join_text_piecesFrom, hpositions]
    rfl

/-- A lasso has a report, unless no position follows its last state. The report has one symbol
for each state of the stem and of the cycle, and that is the dollar sign exactly if the state
has halted. If the last state has not halted, then behind the lasso the report shows the
program from the next position on. -/
theorem showsFrom_ofLasso {program : Program} {lasso : Lasso State}
    (hnext : ∀ last, lasso.cycle.getLast? = some last → program.HasNext last.pc)
    (label : String) :
    ∃ report, ofLasso program lasso label = .ok report ∧
      (∀ last, lasso.cycle.getLast? = some last → last.pc < program.size →
        ShowsFrom program label (last.pc + 1) report) ∧
      List.Forall₂ (IsSymbolOf program) lasso.stem report.stem.toList ∧
      List.Forall₂ (IsSymbolOf program) lasso.cycle report.cycle.toList := by
  have hstem := forall₂_symbols program lasso.stem
  have hcycle := forall₂_symbols program lasso.cycle
  cases hlast : lasso.cycle.getLast? with
  | none =>
    refine ⟨⟨label, lasso, symbols program lasso.stem, symbols program lasso.cycle, []⟩, ?_,
      fun last h => (nomatch h), hstem, hcycle⟩
    rw [ofLasso, continuationOf, hlast]
    rfl
  | some last =>
    refine ⟨_, ofLasso_eq hlast (hnext last hlast), fun other h hpc => ?_, hstem, hcycle⟩
    cases h
    exact showsFrom_of_continuation hpc rfl

/-- Spin in a loop, so that the labels behind it are missed. -/
def spinning : Program :=
  .ofTables [.increment, .jumpIfZero, .jumpIfNonZero, .write, .read, .decrement] [(1, 3), (2, 2)]
    [(3, ["out"]), (4, ["next", "out"]), (6, ["out", "end"])]

/-- The run that does not leave the loop. -/
def spinningLasso : Lasso State :=
  ⟨[.initial none, (State.initial none).write 1 1], [((State.initial none).write 1 1).jump 2],
    .cycle⟩

/-- The label is shown right behind the loop, at the next position, where it is not alone, and
at the end. -/
theorem spinning_showsFrom :
    Program.parse "+[]_out_._next__out_,-_out__end_" = .ok spinning ∧
      ∃ report, ofLasso spinning spinningLasso "out" = .ok report ∧
        report.continuation =
          [.label "out", .code ".", .label "out", .code ",-", .label "out"] ∧
        ShowsFrom spinning "out" 3 report := by
  have hparse : Program.parse "+[]_out_._next__out_,-_out__end_" = .ok spinning := by rfl
  have hnext : ∀ last, spinningLasso.cycle.getLast? = some last →
      spinning.HasNext last.pc := by
    intro last hlast
    cases hlast
    exact .inl (by decide)
  obtain ⟨report, hreport, hshows, _⟩ := showsFrom_ofLasso hnext "out"
  refine ⟨hparse, report, hreport, ?_, hshows _ rfl (by decide)⟩
  cases hreport
  rfl

end Report

end TapeReach
