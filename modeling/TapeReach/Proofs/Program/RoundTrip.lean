import TapeReach.Program.Render
import TapeReach.Proofs.Program.Grammar

/-!
# Reading what was written

The canonical text of a program is written position by position, and each part
of it says one thing: a label adds its name at the position that has been
reached, and a symbol adds its instruction. So the text of a well-formed
program says exactly what the program holds, and it is read as that program.
Every program that was read from a text is well-formed, and so no other program
comes back from its canonical text.
-/

namespace TapeReach

open Brackets Source

/-- The program could have been read from a text: its brackets are balanced and have exactly
their jumps, and every label that is listed can be written. -/
structure Program.WellFormed (program : Program) : Prop where
  /-- The brackets are balanced. -/
  brackets : Balanced program.instructions.toList
  /-- Each bracket jumps behind its partner, and nothing else jumps. -/
  jumps : IsJumpTable program.instructions.toList program.jumps
  /-- Labels stand at a position of the program or at its end. -/
  position : ∀ (pc : Nat) (found : List String), program.labels[pc]? = some found →
    pc ≤ program.size
  /-- No position is listed without a name. -/
  listed : ∀ (pc : Nat) (found : List String), program.labels[pc]? = some found → found ≠ []
  /-- Every name has characters, none of which is the label mark. -/
  name : ∀ (pc : Nat) (found : List String), program.labels[pc]? = some found →
    ∀ name ∈ found, name ≠ "" ∧ labelMark ∉ name.toList

namespace Source

variable {text : List Char} {ps : List (List Char)} {program : Program}

section Names

/-- No piece holds a label mark. -/
theorem mark_not_mem_of_mem_pieces {piece : List Char} (h : piece ∈ pieces text) :
    labelMark ∉ piece := by
  induction text using List.reverseRecOn generalizing piece with
  | nil =>
    rw [List.mem_singleton.mp h]
    exact List.not_mem_nil
  | append_singleton text c ih =>
    by_cases hc : c = labelMark
    · subst hc
      rw [pieces_mark, List.mem_append, List.mem_singleton] at h
      rcases h with h | rfl
      · exact ih h
      · exact List.not_mem_nil
    · obtain ⟨closed, last, htext, hconcat⟩ := exists_pieces_concat text hc
      rw [hconcat, List.mem_append, List.mem_singleton] at h
      rcases h with h | rfl
      · exact ih (htext ▸ List.mem_append_left _ h)
      · have hlast := ih (htext ▸ List.mem_append_right _ List.mem_cons_self)
        rw [List.mem_append, List.mem_singleton]
        rintro (hmem | heq)
        · exact hlast hmem
        · exact hc heq.symm

/-- The first pieces hold no more code than all of them. -/
theorem length_code_take_le (ps : List (List Char)) (k : Nat) :
    (code (ps.take k)).length ≤ (code ps).length := by
  induction ps using List.reverseRecOn with
  | nil => rw [List.take_nil]
  | append_singleton ps piece ih =>
    by_cases hk : k ≤ ps.length
    · rw [List.take_append_of_le_length hk, code_concat, List.length_append]
      omega
    · rw [List.take_of_length_le (by rw [List.length_append, List.length_singleton]; omega)]

/-- A name at a position is an odd piece with as much code before it. -/
theorem exists_piece_of_mem_names {name : String} {pc : Nat} (h : name ∈ names ps pc) :
    ∃ k piece, ps[k]? = some piece ∧ k % 2 = 1 ∧ (code (ps.take k)).length = pc ∧
      name = String.ofList piece := by
  obtain ⟨⟨piece, k⟩, hmem, hname⟩ := List.mem_filterMap.mp h
  split at hname
  · rename_i hk
    exact ⟨k, piece, List.mk_mem_zipIdx_iff_getElem?.mp hmem, hk.1, hk.2,
      (Option.some.inj hname).symm⟩
  · cases hname

/-- A program that was read from a text is well-formed. -/
theorem IsProgramOf.wellFormed (hgrammar : InGrammar text) (h : IsProgramOf text program) :
    program.WellFormed := by
  have hpiece : ∀ (pc : Nat) (found : List String), program.labels[pc]? = some found →
      ∀ name ∈ found, ∃ k piece, (pieces text)[k]? = some piece ∧ k % 2 = 1 ∧
        (code ((pieces text).take k)).length = pc ∧ name = String.ofList piece :=
    fun pc found hfound name hname =>
      exists_piece_of_mem_names (((h.labels pc found).mp hfound).2 ▸ hname)
  refine ⟨h.instructions ▸ hgrammar.brackets, h.instructions ▸ h.jumps, fun pc found hfound => ?_,
    fun pc found hfound => ((h.labels pc found).mp hfound).1, fun pc found hfound name hname => ?_⟩
  · obtain ⟨name, rest, rfl⟩ := List.exists_cons_of_ne_nil ((h.labels pc found).mp hfound).1
    obtain ⟨k, _, _, _, hpc, _⟩ := hpiece pc _ hfound name List.mem_cons_self
    rw [Program.size, ← Array.length_toList, h.instructions, ← hpc]
    exact length_code_take_le _ k
  · obtain ⟨k, piece, hk, hodd, _, rfl⟩ := hpiece pc found hfound name hname
    refine ⟨fun hempty => hgrammar.labels k hodd ?_, ?_⟩
    · rw [hk, ← String.toList_ofList (l := piece), hempty]
      rfl
    · rw [String.toList_ofList]
      exact mark_not_mem_of_mem_pieces (List.mem_of_getElem? hk)

end Names

section Writing

/-- The text stands outside labels and says these instructions and these labels. -/
structure Says (text : List Char) (instructions : List Instruction)
    (labels : Nat → List String) : Prop where
  /-- Every label is closed. -/
  marks : text.count labelMark % 2 = 0
  /-- Every label has a name. -/
  named : ∀ k, k % 2 = 1 → (pieces text)[k]? ≠ some []
  /-- The code is that of the instructions. -/
  code : code (pieces text) = instructions
  /-- The names at each position are the labels there. -/
  names : ∀ pc, names (pieces text) pc = labels pc

variable {instructions : List Instruction} {labels : Nat → List String}

/-- The empty text says nothing. -/
theorem says_nil : Says [] [] fun _ => [] where
  marks := rfl
  named k hk := by
    have hpos : k ≠ 0 := by omega
    have hpieces : pieces [] = [[]] := rfl
    rw [hpieces, List.getElem?_eq_none (by rw [List.length_singleton]; omega)]
    exact (Option.some_ne_none _).symm
  code := rfl
  names _ := rfl

/-- A label adds its name where the instructions have come to. -/
theorem Says.label (h : Says text instructions labels) {name : String} (hne : name ≠ "")
    (hname : labelMark ∉ name.toList) :
    Says (text ++ Program.labelText name) instructions
      fun pc => labels pc ++ if instructions.length = pc then [name] else [] := by
  have hpieces : pieces (text ++ Program.labelText name) =
      pieces text ++ [name.toList] ++ [[]] := by
    rw [Program.labelText, ← List.cons_append, ← List.append_assoc, pieces_mark,
      pieces_label text hname]
  have hmarks := h.marks
  have hlength := length_pieces text
  have hlength' : (pieces text ++ [name.toList]).length = (pieces text).length + 1 := by
    rw [List.length_append, List.length_singleton]
  refine ⟨?_, fun k hk => ?_, ?_, fun pc => ?_⟩
  · rw [Program.labelText, List.count_append, List.count_cons_self, List.count_append,
      List.count_singleton_self, List.count_eq_zero.mpr hname]
    omega
  · have hnamed := odd_concat_ne_nil h.named fun _ heq => hne (String.toList_eq_nil_iff.mp heq)
    rw [hpieces]
    exact odd_concat_ne_nil hnamed (fun hodd => absurd hodd (by omega)) k hk
  · rw [hpieces, code_concat, code_concat, if_neg (by omega), List.append_nil, List.filterMap_nil,
      ite_self, List.append_nil, h.code]
  · have heven : ¬ (pieces text ++ [name.toList]).length % 2 = 1 := by omega
    rw [hpieces, names_concat, if_neg fun hand => heven hand.1, List.append_nil, names_concat,
      h.names, h.code, String.ofList_toList]
    congr 1
    by_cases hpc : instructions.length = pc
    · rw [if_pos ⟨by omega, hpc⟩, if_pos hpc]
    · rw [if_neg fun hand => hpc hand.2, if_neg hpc]

/-- Labels in a row add their names in order. -/
theorem Says.labelRow (h : Says text instructions labels) {found : List String}
    (hfound : ∀ name ∈ found, name ≠ "" ∧ labelMark ∉ name.toList) :
    Says (text ++ found.flatMap Program.labelText) instructions
      fun pc => labels pc ++ if instructions.length = pc then found else [] := by
  induction found generalizing text labels with
  | nil =>
    rw [List.flatMap_nil, List.append_nil]
    simp only [ite_self, List.append_nil]
    exact h
  | cons name found ih =>
    obtain ⟨hne, hname⟩ := hfound name List.mem_cons_self
    have hrest := ih (h.label hne hname) fun other hother =>
      hfound other (List.mem_cons_of_mem _ hother)
    rw [List.flatMap_cons, ← List.append_assoc]
    refine ⟨hrest.marks, hrest.named, hrest.code, fun pc => (hrest.names pc).trans ?_⟩
    split
    · rw [List.append_assoc, List.singleton_append]
    · rw [List.append_nil]

/-- A symbol adds its instruction. -/
theorem Says.symbol (h : Says text instructions labels) (i : Instruction) :
    Says (text ++ [i.symbol]) (instructions ++ [i]) labels := by
  have hsymbol := Instruction.ofSymbol?_symbol i
  have hmark : i.symbol ≠ labelMark := ne_mark_of_symbol hsymbol
  have hmarks : (text ++ [i.symbol]).count labelMark % 2 = 0 := by
    rw [List.count_append, List.count_singleton, if_neg (by simpa using hmark), Nat.add_zero,
      h.marks]
  refine ⟨hmarks, fun k hk => ?_, ?_, fun pc => ?_⟩
  · rw [getElem?_closedPieces hmarks hk, closedPieces_concat text hmark,
      ← getElem?_closedPieces h.marks hk]
    exact h.named k hk
  · rw [code_of_symbol h.marks hsymbol, h.code]
  · rw [names_pieces hmarks, closedPieces_concat text hmark, ← names_pieces h.marks, h.names]

end Writing

end Source

namespace Program

variable {program : Program}

/-- The names at a position can be written. -/
theorem WellFormed.labelsAt (h : program.WellFormed) (pc : Nat) :
    ∀ name ∈ program.labelsAt pc, name ≠ "" ∧ labelMark ∉ name.toList := by
  intro name hname
  rw [Program.labelsAt] at hname
  cases hfound : program.labels[pc]? with
  | none =>
    rw [hfound] at hname
    exact (List.not_mem_nil hname).elim
  | some found =>
    rw [hfound] at hname
    exact h.name pc found hfound name hname

/-- The text of the first positions says the instructions and labels there. -/
theorem WellFormed.written (h : program.WellFormed) {n : Nat} (hn : n ≤ program.size + 1) :
    Says ((List.range n).flatMap (program.positionText true)) (program.instructions.toList.take n)
      fun pc => if pc < n then program.labelsAt pc else [] := by
  induction n with
  | zero =>
    rw [List.take_zero]
    exact says_nil
  | succ n ih =>
    have hsize : program.instructions.toList.length = program.size := Array.length_toList
    have hlength : (program.instructions.toList.take n).length = n := by
      rw [List.length_take, hsize]
      omega
    have hlabels := (ih (by omega)).labelRow (h.labelsAt n)
    have hnames : ∀ pc, ((if pc < n then program.labelsAt pc else []) ++
        if (program.instructions.toList.take n).length = pc then program.labelsAt n else []) =
          if pc < n + 1 then program.labelsAt pc else [] := by
      intro pc
      rw [hlength]
      rcases Nat.lt_trichotomy pc n with hlt | rfl | hgt
      · rw [if_pos hlt, if_neg (by omega), if_pos (by omega), List.append_nil]
      · rw [if_neg (Nat.lt_irrefl _), if_pos rfl, if_pos (Nat.lt_succ_self _), List.nil_append]
      · rw [if_neg (by omega), if_neg (by omega), if_neg (by omega), List.append_nil]
    rw [List.range_succ, List.flatMap_append, List.flatMap_singleton, positionText, if_pos rfl,
      ← List.append_assoc]
    -- At the halting position no symbol follows the labels.
    cases hi : program.instructionAt? n with
    | none =>
      have hwhole : program.instructions.toList.take (n + 1) =
          program.instructions.toList.take n := by
        have hge : program.size ≤ n := Array.getElem?_eq_none_iff.mp hi
        rw [List.take_of_length_le (by omega), List.take_of_length_le (by omega)]
      rw [Option.toList_none, List.map_nil, List.append_nil, hwhole]
      exact ⟨hlabels.marks, hlabels.named, hlabels.code,
        fun pc => (hlabels.names pc).trans (hnames pc)⟩
    | some i =>
      have hnext : program.instructions.toList.take (n + 1) =
          program.instructions.toList.take n ++ [i] := by
        have hat : program.instructions.toList[n]? = some i := by
          rw [Array.getElem?_toList]
          exact hi
        rw [List.take_add_one, hat, Option.toList_some]
      have hsymbol := hlabels.symbol i
      rw [Option.toList_some, List.map_singleton, hnext]
      exact ⟨hsymbol.marks, hsymbol.named, hsymbol.code,
        fun pc => (hsymbol.names pc).trans (hnames pc)⟩

/-- A well-formed program comes back from its canonical text. -/
theorem WellFormed.ofChars_render (h : program.WellFormed) :
    ofChars (program.renderChars true) = .ok program := by
  have hwritten := h.written (Nat.le_refl (program.size + 1))
  have hcode : code (pieces (program.renderChars true)) = program.instructions.toList := by
    rw [renderChars, hwritten.code, List.take_of_length_le]
    rw [Array.length_toList]
    exact Nat.le_succ _
  refine ofChars_eq_ok_iff.mpr ⟨⟨hwritten.marks, hwritten.named, hcode ▸ h.brackets⟩, hcode.symm,
    hcode ▸ h.jumps, fun pc found => ?_⟩
  rw [renderChars, hwritten.names]
  constructor
  · intro hfound
    have hpc := h.position pc found hfound
    refine ⟨h.listed pc found hfound, ?_⟩
    rw [if_pos (Nat.lt_succ_of_le hpc), Program.labelsAt, hfound, Option.getD_some]
  · rintro ⟨hne, heq⟩
    split at heq
    · rw [Program.labelsAt] at heq
      cases hfound : program.labels[pc]? with
      | none =>
        rw [hfound] at heq
        exact absurd heq hne
      | some other =>
        rw [hfound] at heq
        rw [heq, Option.getD_some]
    · exact absurd heq hne

/-- Every program that was read from a text is well-formed, and the programs that come back
from their canonical text are exactly the well-formed ones. -/
theorem parse_render_iff :
    (∀ text program, parse text = .ok program → program.WellFormed) ∧
      ∀ program : Program, parse (program.render true) = .ok program ↔ program.WellFormed := by
  have hparsed : ∀ text program, parse text = .ok program → program.WellFormed := by
    intro text program hprogram
    obtain ⟨hgrammar, htables⟩ := ofChars_eq_ok_iff.mp hprogram
    exact htables.wellFormed hgrammar
  refine ⟨hparsed, fun program => ⟨hparsed _ program, fun h => ?_⟩⟩
  rw [parse, render, String.toList_ofList]
  exact h.ofChars_render

/-- A loop with nothing in it, two labels in a row on its end, and brackets and a line break
among the names. -/
def emptyLoop : Program :=
  .ofTables [.jumpIfZero, .jumpIfNonZero] [(0, 2), (1, 1)]
    [(0, ["]"]), (1, ["a", "\n"]), (2, ["end"])]

/-- One instruction with a label behind its end, where no text reaches. -/
def strayLabel : Program :=
  .ofTables [.increment] [] [(2, ["a"])]

/-- The empty loop comes back, and the instruction comes back without its stray label. -/
theorem emptyLoop_returns :
    emptyLoop.render true = "_]_[_a__\n_]_end_" ∧ emptyLoop.WellFormed ∧
      parse (emptyLoop.render true) = .ok emptyLoop ∧
      parse (strayLabel.render true) ≠ .ok strayLabel ∧ ¬ strayLabel.WellFormed := by
  have hread : parse "_]_[_a__\n_]_end_" = .ok emptyLoop := by rfl
  have hwell := parse_render_iff.1 _ _ hread
  have hstray : parse (strayLabel.render true) = .ok (.ofTables [.increment] [] []) := by rfl
  have hlost : parse (strayLabel.render true) ≠ .ok strayLabel := by
    rw [hstray]
    intro heq
    have hlabels := congrArg (labelsAt · 2) (Except.ok.inj heq)
    exact absurd hlabels (by decide)
  exact ⟨by rfl, hwell, (parse_render_iff.2 emptyLoop).mpr hwell, hlost,
    fun h => hlost ((parse_render_iff.2 strayLabel).mpr h)⟩

end Program

end TapeReach
