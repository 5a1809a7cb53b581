import TapeReach.Proofs.Program.Parsed
import TapeReach.Proofs.Program.Pieces

/-!
# Exactly what a text is read as

A scanner that has read the beginning of a text holds the code of its pieces,
the names of the labels that are closed, and a jump table of the brackets that
are matched. Besides, no fault of the text begins before the place that the
scanner has come to, where the text of an open label counts from its opening
mark. So a scanner that fails has met the first fault, and one that comes to
the end of the text holds exactly the program of the text.
-/

namespace TapeReach

namespace Scanner

open Brackets Source

/-- The entry is the number and the byte offset of an opening bracket in the text. -/
def Placed (before : List Char) (entry : Nat × Nat) : Prop :=
  ∃ opening after, before = opening ++ '[' :: after ∧ opening.count labelMark % 2 = 0 ∧
    entry = ((code (pieces opening)).length, bytes opening)

/-- Where the reading of a text has come to: outside labels, or in the name of a label. -/
inductive Stands (before : List Char) : Option (Nat × List Char) → Prop
  | outside (hb : before.count labelMark % 2 = 0) : Stands before none
  | inside {opening name : List Char} (ht : before = opening ++ labelMark :: name)
      (hb : opening.count labelMark % 2 = 0) (hname : labelMark ∉ name) :
      Stands before (some (bytes opening, name.reverse))

/-- The scanner holds the code of the text. -/
structure CodeRead (before : List Char) (s : Scanner) : Prop where
  /-- The instructions are those of the even pieces. -/
  instructions : s.instructions.toList = code (pieces before)
  /-- The jump table has the brackets that are matched. -/
  jumps : IsJumpTable (code (pieces before)) s.jumps
  /-- The stack has the brackets that are open. -/
  opens : Opens (code (pieces before)) (s.openBrackets.map Prod.fst)
  /-- The stack says where the open brackets stand. -/
  places : ∀ entry ∈ s.openBrackets, Placed before entry

/-- The scanner holds the labels of the text. -/
structure LabelsRead (before : List Char) (s : Scanner) : Prop where
  /-- The scanner knows whether it stands in a label. -/
  label : Stands before s.openLabel
  /-- The label map has the names that are closed. -/
  labels : ∀ (pc : Nat) (found : List String),
    s.labels[pc]? = some found ↔ found ≠ [] ∧ found = names (closedPieces before) pc
  /-- No label that is closed is without a name. -/
  named : ∀ k : Nat, k % 2 = 1 → (closedPieces before)[k]? ≠ some []

/-- The scanner holds all that the text says. -/
structure Scanned (before : List Char) (s : Scanner) : Prop extends
    CodeRead before s, LabelsRead before s where
  /-- The scanner counts the bytes of the text. -/
  offset : s.offset = bytes before

/-- The byte offset up to which a text is known to have no fault. -/
def frontier (s : Scanner) : Nat :=
  match s.openLabel with
  | some (start, _) => start
  | none => s.offset

variable {text before after : List Char} {s s' : Scanner} {c : Char}

/-- Brackets keep their place when more is read. -/
theorem Placed.concat {entry : Nat × Nat} (h : Placed before entry) (c : Char) :
    Placed (before ++ [c]) entry := by
  obtain ⟨opening, after, rfl, hb, hentry⟩ := h
  refine ⟨opening, after ++ [c], ?_, hb, hentry⟩
  rw [List.append_assoc, List.cons_append]

section Steps

/-- Outside labels a scanner has an even number of marks behind it. -/
theorem Stands.count_of_none (h : Stands before none) : before.count labelMark % 2 = 0 := by
  cases h with
  | outside hb => exact hb

/-- In a label a scanner has the opening mark and a part of the name behind it. -/
theorem Stands.exists_of_some {start : Nat} {chars : List Char}
    (h : Stands before (some (start, chars))) :
    ∃ opening name, before = opening ++ labelMark :: name ∧ opening.count labelMark % 2 = 0 ∧
      labelMark ∉ name ∧ start = bytes opening ∧ chars = name.reverse := by
  cases h with
  | inside ht hb hname => exact ⟨_, _, ht, hb, hname, rfl, rfl⟩

/-- A character that adds no code leaves the code as it was read. -/
theorem CodeRead.keep (h : CodeRead before s)
    (hcode : code (pieces (before ++ [c])) = code (pieces before))
    (hi : s'.instructions = s.instructions) (hj : s'.jumps = s.jumps)
    (ho : s'.openBrackets = s.openBrackets) : CodeRead (before ++ [c]) s' where
  instructions := by rw [hi, hcode, h.instructions]
  jumps := by
    rw [hj, hcode]
    exact h.jumps
  opens := by
    rw [ho, hcode]
    exact h.opens
  places entry hentry := (h.places entry (ho ▸ hentry)).concat c

/-- Number of instructions that have been read. -/
theorem CodeRead.size (h : CodeRead before s) :
    s.instructions.size = (code (pieces before)).length := by
  rw [← h.instructions, Array.length_toList]

/-- An instruction other than a bracket is added. -/
theorem CodeRead.plain (h : CodeRead before s) {i : Instruction}
    (hcode : code (pieces (before ++ [c])) = code (pieces before) ++ [i]) (hj : i.isJump = false)
    (offset : Nat) : CodeRead (before ++ [c]) { s.push i with offset := offset } where
  instructions := by rw [hcode, ← h.instructions, push, Array.toList_push]
  jumps := by
    have hne : i ≠ .jumpIfNonZero := fun heq => by simp [heq, Instruction.isJump] at hj
    rw [hcode]
    exact h.jumps.concat hne
  opens := by
    rw [hcode]
    exact h.opens.append (balanced_singleton hj)
  places entry hentry := (h.places entry hentry).concat c

/-- A bracket is opened. -/
theorem CodeRead.opening (h : CodeRead before s) (hb : before.count labelMark % 2 = 0)
    (hcode : code (pieces (before ++ [c])) = code (pieces before) ++ [.jumpIfZero])
    (hc : c = '[') (hoffset : s.offset = bytes before) (offset : Nat) :
    CodeRead (before ++ [c]) { s.push .jumpIfZero with
      offset := offset
      openBrackets := (s.instructions.size, s.offset) :: s.openBrackets } where
  instructions := by rw [hcode, ← h.instructions, push, Array.toList_push]
  jumps := by
    rw [hcode]
    exact h.jumps.concat (by decide)
  opens := by
    rw [hcode, List.map_cons, h.size]
    exact h.opens.opening
  places entry hentry := by
    rcases List.mem_cons.mp hentry with rfl | hentry
    · exact ⟨before, [], by rw [hc], hb, by rw [h.size, hoffset]⟩
    · exact (h.places entry hentry).concat c

/-- The innermost open bracket is closed. -/
theorem CodeRead.closing (h : CodeRead before s) {start opened : Nat} {outer : List (Nat × Nat)}
    (hcode : code (pieces (before ++ [c])) = code (pieces before) ++ [.jumpIfNonZero])
    (ho : s.openBrackets = (start, opened) :: outer) (offset : Nat) :
    CodeRead (before ++ [c]) { s.push .jumpIfNonZero with
      offset := offset
      jumps := (s.jumps.insert start (s.instructions.size + 1)).insert s.instructions.size
        (start + 1)
      openBrackets := outer } := by
  have hopens := h.opens
  rw [ho, List.map_cons] at hopens
  refine ⟨?_, ?_, ?_, ?_⟩
  · rw [hcode, ← h.instructions, push, Array.toList_push]
  · rw [hcode, h.size]
    exact h.jumps.closing hopens
  · rw [hcode]
    exact hopens.closing
  · intro entry hentry
    exact (h.places entry (ho ▸ List.mem_cons_of_mem _ hentry)).concat c

/-- A character of the code leaves the labels as they were read. -/
theorem LabelsRead.keep (h : LabelsRead before s) (hb : before.count labelMark % 2 = 0)
    (hc : c ≠ labelMark) (hl : s'.openLabel = none) (hs : s'.labels = s.labels) :
    LabelsRead (before ++ [c]) s' where
  label := by
    rw [hl]
    refine .outside ?_
    rw [List.count_append, List.count_singleton, if_neg (by simpa using hc), Nat.add_zero, hb]
  labels pc found := by
    rw [hs, closedPieces_concat before hc]
    exact h.labels pc found
  named k hk := by
    rw [closedPieces_concat before hc]
    exact h.named k hk

/-- A mark outside labels opens one. -/
theorem LabelsRead.openLabel (h : LabelsRead before s) (hb : before.count labelMark % 2 = 0)
    (hl : s'.openLabel = some (bytes before, [])) (hs : s'.labels = s.labels) :
    LabelsRead (before ++ [labelMark]) s' where
  label := by
    rw [hl]
    exact .inside rfl hb List.not_mem_nil
  labels pc found := by
    rw [hs, closedPieces_mark, names_pieces hb]
    exact h.labels pc found
  named k hk := by
    rw [closedPieces_mark, getElem?_closedPieces hb hk]
    exact h.named k hk

variable {opening name : List Char}

/-- A character other than a mark goes on with the name of a label. -/
theorem LabelsRead.extend (h : LabelsRead (opening ++ labelMark :: name) s)
    (hb : opening.count labelMark % 2 = 0) (hname : labelMark ∉ name) (hc : c ≠ labelMark)
    (hl : s'.openLabel = some (bytes opening, c :: name.reverse)) (hs : s'.labels = s.labels) :
    LabelsRead (opening ++ labelMark :: name ++ [c]) s' where
  label := by
    have hchars : c :: name.reverse = (name ++ [c]).reverse := by
      rw [List.reverse_append, List.reverse_singleton, List.singleton_append]
    rw [hl, hchars]
    refine .inside ?_ hb ?_
    · rw [List.append_assoc, List.cons_append]
    · rw [List.mem_append, List.mem_singleton]
      rintro (hmem | heq)
      · exact hname hmem
      · exact hc heq.symm
  labels pc found := by
    rw [hs, closedPieces_concat _ hc]
    exact h.labels pc found
  named k hk := by
    rw [closedPieces_concat _ hc]
    exact h.named k hk

/-- A mark in a label with a name closes it and attaches the name. -/
theorem LabelsRead.attach (h : LabelsRead (opening ++ labelMark :: name) s)
    (hb : opening.count labelMark % 2 = 0) (hname : labelMark ∉ name) (hne : name ≠ [])
    (hsize : s.instructions.size = (code (pieces opening)).length) (offset : Nat) :
    LabelsRead (opening ++ labelMark :: name ++ [labelMark])
      { s.attach (String.ofList name) with offset := offset, openLabel := none } := by
  have hclosed : closedPieces (opening ++ labelMark :: name ++ [labelMark]) =
      pieces opening ++ [name] := by
    rw [closedPieces_mark, pieces_label opening hname]
  have hbefore : closedPieces (opening ++ labelMark :: name) = pieces opening := by
    rw [closedPieces, pieces_label opening hname, List.dropLast_concat]
  have hodd : (pieces opening).length % 2 = 1 := by
    rw [length_pieces]
    omega
  have hlabels := h.labels
  have hnamed := h.named
  rw [hbefore] at hlabels hnamed
  refine ⟨.outside ?_, fun pc found => ?_, fun k hk => ?_⟩
  · rw [List.count_append, List.count_append, List.count_cons_self, List.count_singleton_self,
      List.count_eq_zero.mpr hname]
    omega
  · -- The names that were attached here before, if any, are those of the earlier pieces.
    have hold := getD_eq_names hlabels pc
    change (s.labels.insert s.instructions.size
      ((s.labels[s.instructions.size]?).getD [] ++ [String.ofList name]))[pc]? = some found ↔ _
    rw [hclosed, names_concat, Std.ExtTreeMap.getElem?_insert, hsize]
    by_cases hpc : (code (pieces opening)).length = pc
    · rw [if_pos (Std.LawfulEqCmp.compare_eq_iff_eq.mpr hpc), if_pos ⟨hodd, hpc⟩,
        hpc, hold, Option.some.injEq]
      constructor
      · rintro rfl
        exact ⟨by simp, rfl⟩
      · rintro ⟨_, rfl⟩
        rfl
    · rw [if_neg fun heq => hpc (Std.LawfulEqCmp.compare_eq_iff_eq.mp heq),
        if_neg fun hand => hpc hand.2, List.append_nil]
      exact hlabels pc found
  · rw [hclosed]
    exact odd_concat_ne_nil hnamed (fun _ => hne) k hk

end Steps

/-- A scanner holds all that a text says after one more character. -/
theorem Scanned.reads (h : Scanned before s) (hread : Reads s c s') :
    Scanned (before ++ [c]) s' := by
  have hoffset : s.offset + c.utf8Size = bytes (before ++ [c]) := by
    rw [bytes_append, bytes_singleton, h.offset]
  have hlabel := h.label
  cases hread with
  | @name start chars hl hc =>
    rw [hl] at hlabel
    obtain ⟨opening, name, rfl, hb, hname, rfl, rfl⟩ := hlabel.exists_of_some
    have hcode : code (pieces (opening ++ labelMark :: name ++ [c])) =
        code (pieces (opening ++ labelMark :: name)) := by
      rw [code_pieces_concat, if_neg, List.append_nil]
      rw [List.count_append, List.count_cons_self, List.count_eq_zero.mpr hname]
      omega
    exact ⟨h.toCodeRead.keep hcode rfl rfl rfl, h.toLabelsRead.extend hb hname hc rfl rfl, hoffset⟩
  | @attach start chars hl hc hne =>
    rw [hl] at hlabel
    obtain ⟨opening, name, rfl, hb, hname, rfl, rfl⟩ := hlabel.exists_of_some
    subst hc
    have hcode := code_pieces_mark (opening ++ labelMark :: name)
    have hsize := h.toCodeRead.size
    rw [code_pieces_label hb hname] at hsize
    have hattached := h.toLabelsRead.attach hb hname (by simpa using hne) hsize
      (s.offset + labelMark.utf8Size)
    rw [List.reverse_reverse]
    exact ⟨h.toCodeRead.keep hcode rfl rfl rfl, hattached, hoffset⟩
  | label hl hc =>
    rw [hl] at hlabel
    subst hc
    have hcode := code_pieces_mark before
    have hopened : some (s.offset, []) = some (bytes before, ([] : List Char)) := by rw [h.offset]
    exact ⟨h.toCodeRead.keep hcode rfl rfl rfl,
      h.toLabelsRead.openLabel hlabel.count_of_none hopened rfl, hoffset⟩
  | comment hl hc hi =>
    rw [hl] at hlabel
    have hb := hlabel.count_of_none
    have hcode : code (pieces (before ++ [c])) = code (pieces before) := by
      rw [code_pieces_concat, if_pos hb, hi, Option.toList_none, List.append_nil]
    exact ⟨h.toCodeRead.keep hcode rfl rfl rfl, h.toLabelsRead.keep hb hc hl rfl, hoffset⟩
  | plain hl hi hj =>
    rw [hl] at hlabel
    have hb := hlabel.count_of_none
    exact ⟨h.toCodeRead.plain (code_of_symbol hb hi) hj _,
      h.toLabelsRead.keep hb (ne_mark_of_symbol hi) hl rfl, hoffset⟩
  | opening hl hi =>
    rw [hl] at hlabel
    have hb := hlabel.count_of_none
    exact ⟨h.toCodeRead.opening hb (code_of_symbol hb hi) (Instruction.ofSymbol?_eq_some.mp hi)
      h.offset _, h.toLabelsRead.keep hb (ne_mark_of_symbol hi) hl rfl, hoffset⟩
  | closing hl hi ho =>
    rw [hl] at hlabel
    have hb := hlabel.count_of_none
    exact ⟨h.toCodeRead.closing (code_of_symbol hb hi) ho _,
      h.toLabelsRead.keep hb (ne_mark_of_symbol hi) hl rfl, hoffset⟩

section Faults

/-- Outside labels all that was read is known to have no fault. -/
theorem frontier_of_none (hl : s.openLabel = none) : s.frontier = s.offset := by
  rw [frontier, hl]

/-- In a label the text is known to have no fault up to the opening mark. -/
theorem frontier_of_some {start : Nat} {chars : List Char}
    (hl : s.openLabel = some (start, chars)) : s.frontier = start := by
  rw [frontier, hl]

/-- No fault begins with a character of the code that a scanner accepts. -/
theorem Scanned.clean_code (h : Scanned before s) (ht : text = before ++ c :: after)
    (hclean : CleanBefore text s.frontier) (hl : s.openLabel = none) (hc : c ≠ labelMark)
    (hp : c = ']' → ∃ p, Pairs (code (pieces text)) p (code (pieces before)).length)
    (hl' : s'.openLabel = none) (ho' : s'.offset = s.offset + c.utf8Size) :
    CleanBefore text s'.frontier := by
  rw [frontier_of_none hl, h.offset] at hclean
  rw [frontier_of_none hl', ho', h.offset, ← bytes_singleton, ← bytes_append]
  exact hclean.code ht hc hp

/-- The bracket that a scanner closes has its partner in the text. -/
theorem CodeRead.exists_pairs (h : CodeRead before s) {entry : Nat × Nat}
    {outer : List (Nat × Nat)} (ht : text = before ++ c :: after)
    (hb : before.count labelMark % 2 = 0) (hi : Instruction.ofSymbol? c = some .jumpIfNonZero)
    (ho : s.openBrackets = entry :: outer) :
    ∃ p, Pairs (code (pieces text)) p (code (pieces before)).length := by
  have hopens := h.opens
  rw [ho, List.map_cons] at hopens
  obtain ⟨rest, hrest⟩ := exists_code_append (before ++ [c]) after
  have htext : code (pieces text) = code (pieces before) ++ [.jumpIfNonZero] ++ rest := by
    rw [ht, ← code_of_symbol hb hi, ← hrest, List.append_assoc, List.singleton_append]
  rw [htext]
  exact ⟨entry.1, (hopens.pairs_closing.mpr (.inr ⟨rfl, rfl⟩)).append rest⟩

/-- A scanner that reads on without a fault has come to no fault. -/
theorem Scanned.clean_reads (h : Scanned before s) (hread : Reads s c s')
    (ht : text = before ++ c :: after) (hclean : CleanBefore text s.frontier) :
    CleanBefore text s'.frontier := by
  have hlabel := h.label
  cases hread with
  | name hl _ =>
    rw [frontier_of_some hl] at hclean
    exact hclean
  | attach hl hc hne =>
    rw [frontier_of_some hl] at hclean
    rw [hl] at hlabel
    obtain ⟨opening, name, rfl, hb, hname, rfl, rfl⟩ := hlabel.exists_of_some
    subst hc
    rw [List.append_assoc, List.cons_append] at ht
    have hskip := hclean.label ht hb hname (by simpa using hne)
    change CleanBefore text (s.offset + labelMark.utf8Size)
    rw [h.offset, ← bytes_singleton, ← bytes_append, List.append_assoc, List.cons_append]
    exact hskip
  | label hl _ =>
    rw [frontier_of_none hl] at hclean
    exact hclean
  | comment hl hc hi =>
    refine h.clean_code ht hclean hl hc ?_ hl rfl
    rintro rfl
    cases hi
  | plain hl hi hj =>
    refine h.clean_code ht hclean hl (ne_mark_of_symbol hi) ?_ hl rfl
    rintro rfl
    cases hi
    cases hj
  | opening hl hi =>
    refine h.clean_code ht hclean hl (ne_mark_of_symbol hi) ?_ hl rfl
    rintro rfl
    cases hi
  | closing hl hi ho =>
    rw [hl] at hlabel
    exact h.clean_code ht hclean hl (ne_mark_of_symbol hi)
      (fun _ => h.exists_pairs ht hlabel.count_of_none hi ho) hl rfl

/-- A scanner that refuses a character has met the first fault of the text. -/
theorem Scanned.fault_of_step (h : Scanned before s) {err : SyntaxError}
    (hstep : s.step c = .error err) (ht : text = before ++ c :: after)
    (hclean : CleanBefore text s.frontier) : Fault text err ∧ CleanBefore text err.offset := by
  have hlabel := h.label
  rcases error_of_step hstep with ⟨start, hl, hc, rfl⟩ | ⟨hl, hi, ho, rfl⟩
  · rw [frontier_of_some hl] at hclean
    rw [hl] at hlabel
    obtain ⟨opening, name, rfl, hb, _, rfl, hname⟩ := hlabel.exists_of_some
    have hempty : name = [] := List.reverse_eq_nil_iff.mp hname.symm
    subst hempty hc
    rw [List.append_assoc, List.singleton_append] at ht
    exact ⟨.emptyLabel ht hb, hclean⟩
  · rw [frontier_of_none hl] at hclean
    rw [hl] at hlabel
    have hb := hlabel.count_of_none
    have hc : c = ']' := Instruction.ofSymbol?_eq_some.mp hi
    have hopens := h.opens
    rw [ho, List.map_nil] at hopens
    have hbalanced := hopens.balanced_iff.mpr rfl
    refine ⟨?_, hclean⟩
    rw [h.offset]
    refine .close (hc ▸ ht) hb fun p => ?_
    obtain ⟨rest, hrest⟩ := exists_code_symbol hb .jumpIfNonZero after
    have htext : code (pieces text) = code (pieces before) ++ .jumpIfNonZero :: rest := by
      rw [ht, hc]
      exact hrest
    rw [htext]
    exact hbalanced.not_pairs_close rest

/-- Before the first character nothing has been read. -/
theorem scanned_empty : Scanned [] {} where
  instructions := rfl
  jumps := isJumpTable_nil
  opens := .balanced .nil
  places entry hentry := (List.not_mem_nil hentry).elim
  label := .outside rfl
  labels pc found := by
    have hnames : names (closedPieces []) pc = [] := rfl
    rw [hnames]
    constructor
    · intro hfound
      simp at hfound
    · rintro ⟨hne, heq⟩
      exact absurd heq hne
  named k _ := by
    have hclosed : closedPieces [] = [] := rfl
    rw [hclosed, List.getElem?_nil]
    exact (Option.some_ne_none _).symm
  offset := rfl

/-- A text is read to its end or to its first fault. -/
theorem Scanned.readAll (h : Scanned before s) {rest : List Char} (ht : text = before ++ rest)
    (hclean : CleanBefore text s.frontier) :
    (∀ s', rest.foldlM step s = .ok s' → Scanned text s' ∧ CleanBefore text s'.frontier) ∧
      ∀ err, rest.foldlM step s = .error err → Fault text err ∧ CleanBefore text err.offset := by
  induction rest generalizing before s with
  | nil =>
    rw [List.append_nil] at ht
    subst ht
    refine ⟨fun s' hread => ?_, fun err hread => ?_⟩
    · cases hread
      exact ⟨h, hclean⟩
    · cases hread
  | cons c rest ih =>
    simp only [List.foldlM_cons]
    cases hs : s.step c with
    | error err =>
      have hfault := h.fault_of_step hs ht hclean
      refine ⟨fun s' hread => ?_, fun found hread => ?_⟩
      · cases hread
      · cases hread
        exact hfault
    | ok next =>
      have hread := reads_of_step hs
      refine ih (h.reads hread) ?_ (h.clean_reads hread ht hclean)
      rw [ht, List.append_assoc, List.singleton_append]

end Faults

end Scanner

namespace Source

open Brackets

variable {text : List Char} {program : Program}

/-- The program has exactly the tables that the text says. -/
structure IsProgramOf (text : List Char) (program : Program) : Prop where
  /-- The instructions are those of the even pieces. -/
  instructions : program.instructions.toList = code (pieces text)
  /-- Each bracket jumps behind its partner. -/
  jumps : IsJumpTable (code (pieces text)) program.jumps
  /-- The names at a position are the odd pieces there, and no position is listed without. -/
  labels : ∀ (pc : Nat) (found : List String),
    program.labels[pc]? = some found ↔ found ≠ [] ∧ found = names (pieces text) pc

/-- The fault that a text is refused for. It is the first one, or else the last opening
bracket without a partner. -/
def RefusedFor (text : List Char) (err : SyntaxError) : Prop :=
  (Fault text err ∧ ∀ other, Fault text other → err.offset ≤ other.offset) ∨
    ((∀ other, ¬ Fault text other) ∧ ∃ offset, err = .unclosedOpen offset ∧
      OpenAt text offset ∧ ∀ other, OpenAt text other → other ≤ offset)

/-- A text has one program at most. -/
theorem IsProgramOf.unique {other : Program} (h : IsProgramOf text program)
    (h' : IsProgramOf text other) : program = other := by
  obtain ⟨instructions, jumps, labels⟩ := program
  obtain ⟨instructions', jumps', labels'⟩ := other
  have hinstructions : instructions = instructions' :=
    Array.toList_inj.mp (h.instructions.trans h'.instructions.symm)
  have hjumps : jumps = jumps' := h.jumps.unique h'.jumps
  have hlabels : labels = labels' := by
    refine Std.ExtTreeMap.ext_getElem? fun pc => Option.ext fun found => ?_
    exact (h.labels pc found).trans (h'.labels pc found).symm
  rw [hinstructions, hjumps, hlabels]

/-- The labels at a position are the odd pieces there. -/
theorem IsProgramOf.labelsAt_eq (h : IsProgramOf text program) (pc : Nat) :
    program.labelsAt pc = names (pieces text) pc :=
  getD_eq_names h.labels pc

/-- A text that was read to its end outside labels, with no bracket open, is a program. -/
theorem inGrammar_of_scanned {s : Scanner} (h : s.Scanned text) (hl : s.openLabel = none)
    (ho : s.openBrackets = []) :
    InGrammar text ∧ IsProgramOf text ⟨s.instructions, s.jumps, s.labels⟩ := by
  have hlabel := h.label
  rw [hl] at hlabel
  have hb := hlabel.count_of_none
  have hopens := h.opens
  rw [ho, List.map_nil] at hopens
  refine ⟨⟨hb, fun k hk => ?_, hopens.balanced_iff.mpr rfl⟩, h.instructions, h.jumps,
    fun pc found => ?_⟩
  · rw [getElem?_closedPieces hb hk]
    exact h.named k hk
  · rw [names_pieces hb]
    exact h.labels pc found

/-- A text that was read to its end outside labels, with a bracket open, is refused for the
last one without a partner. -/
theorem refused_of_open {s : Scanner} (h : s.Scanned text) (hl : s.openLabel = none)
    (hclean : CleanBefore text s.frontier) {p offset : Nat} {outer : List (Nat × Nat)}
    (ho : s.openBrackets = (p, offset) :: outer) : RefusedFor text (.unclosedOpen offset) := by
  rw [Scanner.frontier_of_none hl, h.offset] at hclean
  have hnone : ∀ other, ¬ Fault text other :=
    fun other hother => absurd (hclean other hother) (Nat.not_le.mpr hother.offset_lt)
  have hopens := h.opens
  rw [ho, List.map_cons] at hopens
  obtain ⟨opening, after, ht, hb, hentry⟩ := h.places (p, offset) (ho ▸ List.mem_cons_self)
  obtain ⟨rfl, rfl⟩ := Prod.mk.inj hentry
  refine .inr ⟨hnone, _, rfl,
    ⟨opening, after, ht, hb, fun q => hopens.not_pairs List.mem_cons_self, rfl⟩, ?_⟩
  rintro other ⟨before, rest, ht', hb', hunmatched, rfl⟩
  by_contra hlt
  -- The other bracket would stand behind the innermost open one, and be open too.
  obtain ⟨mid, rfl, hmid⟩ := exists_append_of_bytes_le (ht.symm.trans ht') (by omega)
  cases mid with
  | nil =>
    rw [List.append_nil] at hlt
    exact hlt (Nat.le_refl _)
  | cons d mid =>
    cases hmid
    have hmem : (code (pieces (opening ++ '[' :: mid))).length ∈
        (code (pieces opening)).length :: outer.map Prod.fst := by
      obtain ⟨tail, htail⟩ := exists_code_symbol hb' .jumpIfZero rest
      refine hopens.mem_iff.mpr ⟨?_, hunmatched⟩
      rw [ht']
      change (code (pieces (_ ++ Instruction.jumpIfZero.symbol :: rest)))[_]? = _
      rw [htail, List.getElem?_append_right (Nat.le_refl _), Nat.sub_self, List.getElem?_cons_zero]
    have hle := hopens.le_innermost hmem
    obtain ⟨tail, htail⟩ := exists_code_symbol hb .jumpIfZero mid
    change code (pieces (opening ++ '[' :: mid)) = _ at htail
    rw [htail, List.length_append, List.length_cons] at hle
    omega

/-- A text in the grammar is not refused. -/
theorem InGrammar.not_refused (h : InGrammar text) {err : SyntaxError} : ¬ RefusedFor text err := by
  rintro (⟨hfault, _⟩ | ⟨_, offset, _, hopen, _⟩)
  · exact h.not_fault hfault
  · exact h.not_openAt hopen

/-- Every text is a program, and then it is read as that, or it is refused for a fault. -/
theorem ofChars_cases (text : List Char) :
    (∃ program, Program.ofChars text = .ok program ∧ InGrammar text ∧ IsProgramOf text program) ∨
      ∃ err, Program.ofChars text = .error err ∧ RefusedFor text err := by
  have hstart : CleanBefore text (Scanner.frontier {}) := fun _ _ => Nat.zero_le _
  obtain ⟨hok, herror⟩ := Scanner.scanned_empty.readAll (List.nil_append text).symm hstart
  unfold Program.ofChars
  cases hread : text.foldlM Scanner.step {} with
  | error err => exact .inr ⟨err, rfl, .inl (herror err hread)⟩
  | ok s =>
    obtain ⟨hs, hclean⟩ := hok s hread
    change (∃ program, s.finish = .ok program ∧ _) ∨ ∃ err, s.finish = .error err ∧ _
    unfold Scanner.finish
    cases hl : s.openLabel with
    | some label =>
      have hlabel := hs.label
      rw [hl] at hlabel
      rw [Scanner.frontier_of_some hl] at hclean
      obtain ⟨opening, name, ht, hb, hname, hstart, _⟩ := hlabel.exists_of_some
      refine .inr ⟨_, rfl, .inl ⟨?_, hclean⟩⟩
      rw [hstart]
      exact .unclosedLabel ht hb hname
    | none =>
      cases ho : s.openBrackets with
      | nil =>
        obtain ⟨hgrammar, hprogram⟩ := inGrammar_of_scanned hs hl ho
        exact .inl ⟨_, rfl, hgrammar, hprogram⟩
      | cons entry outer => exact .inr ⟨_, rfl, refused_of_open hs hl hclean ho⟩

/-- A text is read as a program exactly if it is in the grammar and the program has its
tables. -/
theorem ofChars_eq_ok_iff :
    Program.ofChars text = .ok program ↔ InGrammar text ∧ IsProgramOf text program := by
  rcases ofChars_cases text with ⟨found, hfound, hgrammar, htables⟩ | ⟨err, herr, hrefused⟩
  · rw [hfound, Except.ok.injEq]
    constructor
    · rintro rfl
      exact ⟨hgrammar, htables⟩
    · rintro ⟨_, hprogram⟩
      exact htables.unique hprogram
  · rw [herr]
    exact iff_of_false (fun h => by cases h) fun h => h.1.not_refused hrefused

/-- A text that is refused is refused for its first fault. -/
theorem refused_of_ofChars {err : SyntaxError} (h : Program.ofChars text = .error err) :
    RefusedFor text err := by
  rcases ofChars_cases text with ⟨found, hfound, _⟩ | ⟨err', herr, hrefused⟩
  · rw [hfound] at h
    cases h
  · rw [herr] at h
    cases h
    exact hrefused

end Source

namespace Program

open Source Brackets

/-- A text is read exactly if it has an even number of label marks, no odd piece without
characters and balanced brackets in its even pieces. The program then has the instructions
of the even pieces, the odd pieces as labels where they stand, and a jump behind the partner
for each bracket. A text that is refused is refused for the fault with the smallest byte
offset among the closing brackets without a partner, the labels without a name and the
labels that are never closed, and if there is none, for the last opening bracket without a
partner. -/
theorem parse_exact (text : String) :
    ((∃ program, parse text = .ok program) ↔ InGrammar text.toList) ∧
      (∀ program, parse text = .ok program →
        program.instructions.toList = code (pieces text.toList) ∧
        (∀ pc, program.labelsAt pc = names (pieces text.toList) pc) ∧
        (∀ p, p ∈ program.jumps ↔ ∃ i, program.instructionAt? p = some i ∧ i.isJump = true) ∧
        ∀ p q, Pairs (code (pieces text.toList)) p q →
          program.jumpTarget? p = some (q + 1) ∧ program.jumpTarget? q = some (p + 1)) ∧
      ∀ err, parse text = .error err → RefusedFor text.toList err := by
  refine ⟨⟨?_, ?_⟩, fun program hprogram => ?_, fun err herr => refused_of_ofChars herr⟩
  · rintro ⟨program, hprogram⟩
    exact (ofChars_eq_ok_iff.mp hprogram).1
  · intro hgrammar
    rcases ofChars_cases text.toList with ⟨program, hprogram, _⟩ | ⟨err, herr, hrefused⟩
    · exact ⟨program, hprogram⟩
    · exact (hgrammar.not_refused hrefused).elim
  · obtain ⟨hgrammar, htables⟩ := ofChars_eq_ok_iff.mp hprogram
    refine ⟨htables.instructions, htables.labelsAt_eq, fun p => ?_, fun p q hpairs => ⟨?_, ?_⟩⟩
    · rw [htables.jumps.mem_iff hgrammar.brackets, ← htables.instructions, Array.getElem?_toList]
      rfl
    · exact (htables.jumps p _).mpr ⟨q, rfl, .inl hpairs⟩
    · exact (htables.jumps q _).mpr ⟨p, rfl, .inr hpairs⟩

/-- A loop with three labels, one of which holds a bracket. -/
def annotated : Program :=
  .ofTables [.jumpIfZero, .moveRight, .jumpIfNonZero] [(0, 3), (2, 1)]
    [(1, ["a]"]), (2, ["b", "c"])]

/-- A bracket in a label closes nothing, and a bracket that closes nothing is found before
the label behind it that is never closed. -/
theorem annotated_exact :
    parse "ü[_a]_>_b__c_]" = .ok annotated ∧ InGrammar "ü[_a]_>_b__c_]".toList ∧
      annotated.instructions.toList = code (pieces "ü[_a]_>_b__c_]".toList) ∧
      annotated.labelsAt 2 = names (pieces "ü[_a]_>_b__c_]".toList) 2 ∧
      parse "ü_]_]_" = .error (.unmatchedClose 5) ∧
      RefusedFor "ü_]_]_".toList (.unmatchedClose 5) := by
  have hread : parse "ü[_a]_>_b__c_]" = .ok annotated := by rfl
  have hrefused : parse "ü_]_]_" = .error (.unmatchedClose 5) := by rfl
  obtain ⟨hgrammar, htables, _⟩ := parse_exact "ü[_a]_>_b__c_]"
  obtain ⟨hinstructions, hlabels, _⟩ := htables annotated hread
  exact ⟨hread, hgrammar.mp ⟨_, hread⟩, hinstructions, hlabels 2, hrefused,
    (parse_exact "ü_]_]_").2.2 _ hrefused⟩

end Program

end TapeReach
