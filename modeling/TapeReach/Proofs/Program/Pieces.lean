import Mathlib.Data.List.Basic
import TapeReach.Program.Source
import TapeReach.Proofs.Program.Brackets

/-!
# Texts in pieces

The label marks of a text cut it into pieces, numbered from zero. The even
pieces hold the code, with all other characters as comments, and the odd ones
are the names of labels. What a text means is said here in terms of its pieces
and of its brackets, without a scanner: which texts are programs, which
instructions and labels they have, and which faults the others have and where.

A text is followed from left to right by what one more character adds to it.
-/

namespace TapeReach

/-- An instruction is read from its symbol and from no other character. -/
theorem Instruction.ofSymbol?_eq_some {c : Char} {i : Instruction} :
    ofSymbol? c = some i ↔ c = i.symbol := by
  constructor
  · intro h
    unfold ofSymbol? at h
    split at h <;> cases h <;> rfl
  · rintro rfl
    exact ofSymbol?_symbol i

namespace Source

open Brackets

/-- The pieces of a text between its label marks. -/
def pieces (text : List Char) : List (List Char) := text.splitOn labelMark

/-- The instructions that the characters of the even pieces stand for, in order. -/
def code (pieces : List (List Char)) : List Instruction :=
  pieces.zipIdx.flatMap fun entry =>
    if entry.2 % 2 = 0 then entry.1.filterMap Instruction.ofSymbol? else []

/-- The odd pieces with exactly `pc` instructions in the pieces before them, in order. -/
def names (pieces : List (List Char)) (pc : Nat) : List String :=
  pieces.zipIdx.filterMap fun entry =>
    if entry.2 % 2 = 1 ∧ (code (pieces.take entry.2)).length = pc then
      some (String.ofList entry.1)
    else none

/-- The pieces that a mark has ended. -/
def closedPieces (text : List Char) : List (List Char) := (pieces text).dropLast

/-- Number of bytes of the UTF-8 form. -/
def bytes (text : List Char) : Nat := (String.ofList text).utf8ByteSize

/-- The text can be read: every label is closed and has a name, and all brackets of the
code are matched. -/
structure InGrammar (text : List Char) : Prop where
  /-- The number of label marks is even. -/
  marks : text.count labelMark % 2 = 0
  /-- No odd piece is empty. -/
  labels : ∀ k, k % 2 = 1 → (pieces text)[k]? ≠ some []
  /-- The brackets of the even pieces are balanced. -/
  brackets : Balanced (code (pieces text))

/-- The faults that end the reading of a text, each at the byte offset of the character
it begins with. A character stands outside labels when the marks before it are even in
number. -/
inductive Fault (text : List Char) : SyntaxError → Prop
  /-- A closing bracket has no partner. -/
  | close {before after : List Char} (ht : text = before ++ ']' :: after)
      (hb : before.count labelMark % 2 = 0)
      (hp : ∀ p, ¬ Pairs (code (pieces text)) p (code (pieces before)).length) :
      Fault text (.unmatchedClose (bytes before))
  /-- A label is closed at once. -/
  | emptyLabel {before after : List Char} (ht : text = before ++ labelMark :: labelMark :: after)
      (hb : before.count labelMark % 2 = 0) : Fault text (.emptyLabel (bytes before))
  /-- A label is never closed. -/
  | unclosedLabel {before after : List Char} (ht : text = before ++ labelMark :: after)
      (hb : before.count labelMark % 2 = 0) (ha : labelMark ∉ after) :
      Fault text (.unclosedLabel (bytes before))

/-- An opening bracket without a partner stands at this byte offset. -/
def OpenAt (text : List Char) (offset : Nat) : Prop :=
  ∃ before after, text = before ++ '[' :: after ∧ before.count labelMark % 2 = 0 ∧
    (∀ q, ¬ Pairs (code (pieces text)) (code (pieces before)).length q) ∧ offset = bytes before

section Bytes

/-- Bytes add up. -/
theorem bytes_append (a b : List Char) : bytes (a ++ b) = bytes a + bytes b := by
  rw [bytes, String.ofList_append, String.utf8ByteSize_append]
  rfl

/-- A beginning of a text has no more bytes than the text. -/
theorem bytes_le_append (a b : List Char) : bytes a ≤ bytes (a ++ b) := by
  rw [bytes_append]
  exact Nat.le_add_right _ _

/-- Number of bytes of one character. -/
theorem bytes_singleton (c : Char) : bytes [c] = c.utf8Size := by
  rw [bytes, ← String.singleton_eq_ofList, String.utf8ByteSize_singleton]

/-- Only the empty text has no bytes. -/
theorem eq_nil_of_bytes {text : List Char} (h : bytes text = 0) : text = [] := by
  have hempty := String.utf8ByteSize_eq_zero_iff.mp h
  rw [← String.toList_ofList (l := text), hempty]
  rfl

/-- Of two beginnings of a text, the one with fewer bytes is a beginning of the other. -/
theorem exists_append_of_bytes_le {a b x y : List Char} (h : a ++ x = b ++ y)
    (hle : bytes a ≤ bytes b) : ∃ mid, b = a ++ mid ∧ x = mid ++ y := by
  rcases List.append_eq_append_iff.mp h with hmid | ⟨mid, rfl, rfl⟩
  · exact hmid
  · rw [bytes_append] at hle
    have hnil : mid = [] := eq_nil_of_bytes (by omega)
    subst hnil
    exact ⟨[], by rw [List.append_nil, List.append_nil], rfl⟩

end Bytes

section Pieces

variable {text name : List Char} {c : Char}

/-- A mark ends a piece and begins an empty one. -/
theorem pieces_mark (text : List Char) :
    pieces (text ++ [labelMark]) = pieces text ++ [[]] := by
  rw [pieces, List.splitOn_append_cons_self, List.splitOn_nil]
  rfl

/-- Behind a mark the rest of the text is a piece, if it has no further mark. -/
theorem pieces_label (text : List Char) (hname : labelMark ∉ name) :
    pieces (text ++ labelMark :: name) = pieces text ++ [name] := by
  rw [pieces, List.splitOn_append_cons_self, List.splitOn_eq_singleton hname]
  rfl

/-- Any other character belongs to the last piece. -/
theorem exists_pieces_concat (text : List Char) (hc : c ≠ labelMark) :
    ∃ closed last, pieces text = closed ++ [last] ∧
      pieces (text ++ [c]) = closed ++ [last ++ [c]] := by
  induction text with
  | nil =>
    refine ⟨[], [], List.splitOn_nil _, List.splitOn_eq_singleton ?_⟩
    simpa using Ne.symm hc
  | cons d text ih =>
    obtain ⟨closed, last, htext, hconcat⟩ := ih
    simp only [pieces] at htext hconcat ⊢
    rw [List.cons_append, List.splitOn_cons_eq_if_modifyHead, List.splitOn_cons_eq_if_modifyHead,
      htext, hconcat]
    split
    · exact ⟨[] :: closed, last, rfl, rfl⟩
    · cases closed with
      | nil => exact ⟨[], d :: last, rfl, rfl⟩
      | cons first closed => exact ⟨(d :: first) :: closed, last, rfl, rfl⟩

/-- There is one piece more than there are marks. -/
theorem length_pieces (text : List Char) : (pieces text).length = text.count labelMark + 1 := by
  induction text using List.reverseRecOn with
  | nil => rfl
  | append_singleton text c ih =>
    by_cases hc : c = labelMark
    · subst hc
      rw [pieces_mark, List.length_append, ih, List.count_append, List.count_singleton_self,
        List.length_singleton]
    · obtain ⟨closed, last, htext, hconcat⟩ := exists_pieces_concat text hc
      rw [htext, List.length_append, List.length_singleton] at ih
      rw [hconcat, List.length_append, List.length_singleton, ih, List.count_append,
        List.count_singleton, if_neg (by simpa using hc), Nat.add_zero]

/-- A mark ends the last piece. -/
theorem closedPieces_mark (text : List Char) :
    closedPieces (text ++ [labelMark]) = pieces text := by
  rw [closedPieces, pieces_mark, List.dropLast_concat]

/-- Any other character ends no piece. -/
theorem closedPieces_concat (text : List Char) (hc : c ≠ labelMark) :
    closedPieces (text ++ [c]) = closedPieces text := by
  obtain ⟨closed, last, htext, hconcat⟩ := exists_pieces_concat text hc
  rw [closedPieces, closedPieces, htext, hconcat, List.dropLast_concat, List.dropLast_concat]

/-- Number of pieces that a mark has ended. -/
theorem length_closedPieces (text : List Char) :
    (closedPieces text).length = text.count labelMark := by
  rw [closedPieces, List.length_dropLast, length_pieces, Nat.add_sub_cancel]

/-- The last piece is the only one that no mark has ended. -/
theorem exists_pieces_eq (text : List Char) :
    ∃ last, pieces text = closedPieces text ++ [last] :=
  ⟨_, (List.dropLast_append_getLast (List.splitOn_ne_nil labelMark text)).symm⟩

/-- One more piece adds code if it is an even one. -/
theorem code_concat (ps : List (List Char)) (piece : List Char) :
    code (ps ++ [piece]) =
      code ps ++ if ps.length % 2 = 0 then piece.filterMap Instruction.ofSymbol? else [] := by
  rw [code, List.zipIdx_append, List.flatMap_append, List.zipIdx_singleton, List.flatMap_singleton,
    Nat.zero_add]
  rfl

/-- One more piece adds a name if it is an odd one. -/
theorem names_concat (ps : List (List Char)) (piece : List Char) (pc : Nat) :
    names (ps ++ [piece]) pc =
      names ps pc ++
        if ps.length % 2 = 1 ∧ (code ps).length = pc then [String.ofList piece] else [] := by
  rw [names, List.zipIdx_append, List.filterMap_append, List.zipIdx_singleton, Nat.zero_add]
  congr 1
  · refine List.filterMap_congr fun entry hentry => ?_
    have hlt : entry.2 < ps.length + 0 := List.snd_lt_of_mem_zipIdx hentry
    rw [List.take_append_of_le_length (by omega)]
  · rw [List.filterMap_cons, List.filterMap_nil, List.take_left]
    split <;> rename_i heq <;> split at heq <;> simp_all

/-- No odd piece is empty if none was and the last one is not. -/
theorem odd_concat_ne_nil {ps : List (List Char)} {piece : List Char}
    (h : ∀ k, k % 2 = 1 → ps[k]? ≠ some []) (hpiece : ps.length % 2 = 1 → piece ≠ []) (k : Nat)
    (hk : k % 2 = 1) : (ps ++ [piece])[k]? ≠ some [] := by
  rcases Nat.lt_trichotomy k ps.length with hlt | rfl | hgt
  · rw [List.getElem?_append_left hlt]
    exact h k hk
  · rw [List.getElem?_append_right (Nat.le_refl _), Nat.sub_self, List.getElem?_cons_zero]
    exact fun heq => hpiece hk (Option.some.inj heq)
  · rw [List.getElem?_eq_none (by rw [List.length_append, List.length_singleton]; omega)]
    exact (Option.some_ne_none _).symm

/-- A label map that lists the names of the pieces finds them at every position. -/
theorem getD_eq_names {labels : Std.ExtTreeMap Nat (List String)} {ps : List (List Char)}
    (h : ∀ (pc : Nat) (found : List String),
      labels[pc]? = some found ↔ found ≠ [] ∧ found = names ps pc) (pc : Nat) :
    (labels[pc]?).getD [] = names ps pc := by
  cases hfound : labels[pc]? with
  | some found => exact ((h pc found).mp hfound).2
  | none =>
    by_contra hnames
    have hsome := (h pc _).mpr ⟨fun heq => hnames heq.symm, rfl⟩
    rw [hfound] at hsome
    cases hsome

/-- Outside labels all names stand in pieces that a mark has ended. -/
theorem names_pieces (hb : text.count labelMark % 2 = 0) (pc : Nat) :
    names (pieces text) pc = names (closedPieces text) pc := by
  obtain ⟨last, hlast⟩ := exists_pieces_eq text
  rw [hlast, names_concat, length_closedPieces, if_neg (by omega), List.append_nil]

/-- Outside labels all odd pieces have been ended by a mark. -/
theorem getElem?_closedPieces (hb : text.count labelMark % 2 = 0) {k : Nat} (hk : k % 2 = 1) :
    (pieces text)[k]? = (closedPieces text)[k]? := by
  obtain ⟨last, hlast⟩ := exists_pieces_eq text
  have hlength := length_closedPieces text
  rw [hlast]
  rcases Nat.lt_trichotomy k (closedPieces text).length with hlt | heq | hgt
  · rw [List.getElem?_append_left hlt]
  · omega
  · rw [List.getElem?_eq_none (by rw [List.length_append, List.length_singleton]; omega),
      List.getElem?_eq_none (by omega)]

/-- A mark adds no code. -/
theorem code_pieces_mark (text : List Char) :
    code (pieces (text ++ [labelMark])) = code (pieces text) := by
  rw [pieces_mark, code_concat, List.filterMap_nil, ite_self, List.append_nil]

/-- One more character adds an instruction if it stands outside labels and is a symbol. -/
theorem code_pieces_concat (text : List Char) (c : Char) :
    code (pieces (text ++ [c])) = code (pieces text) ++
      if text.count labelMark % 2 = 0 then (Instruction.ofSymbol? c).toList else [] := by
  by_cases hc : c = labelMark
  · subst hc
    have hmark : (Instruction.ofSymbol? labelMark).toList = [] := rfl
    rw [code_pieces_mark, hmark, ite_self, List.append_nil]
  · obtain ⟨closed, last, htext, hconcat⟩ := exists_pieces_concat text hc
    have hclosed := length_closedPieces text
    rw [closedPieces, htext, List.dropLast_concat] at hclosed
    rw [htext, hconcat, code_concat, code_concat, hclosed, List.append_assoc]
    split
    · cases hi : Instruction.ofSymbol? c <;> simp [List.filterMap_append, hi]
    · rfl

/-- The label mark is no symbol. -/
theorem ne_mark_of_symbol {i : Instruction} (hi : Instruction.ofSymbol? c = some i) :
    c ≠ labelMark := by
  rintro rfl
  cases hi

/-- A symbol outside labels adds its instruction to the code. -/
theorem code_of_symbol {i : Instruction} (hb : text.count labelMark % 2 = 0)
    (hi : Instruction.ofSymbol? c = some i) :
    code (pieces (text ++ [c])) = code (pieces text) ++ [i] := by
  rw [code_pieces_concat, if_pos hb, hi, Option.toList_some]

/-- The name of a label holds no code. -/
theorem code_pieces_label (hb : text.count labelMark % 2 = 0) (hname : labelMark ∉ name) :
    code (pieces (text ++ labelMark :: name)) = code (pieces text) := by
  rw [pieces_label text hname, code_concat, length_pieces, if_neg (by omega), List.append_nil]

/-- The code of a text begins with the code of every beginning of it. -/
theorem exists_code_append (text more : List Char) :
    ∃ rest, code (pieces (text ++ more)) = code (pieces text) ++ rest := by
  induction more using List.reverseRecOn with
  | nil => exact ⟨[], by rw [List.append_nil, List.append_nil]⟩
  | append_singleton more c ih =>
    obtain ⟨rest, hrest⟩ := ih
    rw [← List.append_assoc, code_pieces_concat, hrest]
    exact ⟨_, List.append_assoc _ _ _⟩

/-- The code of a text goes on with the instruction that follows a beginning of it. -/
theorem exists_code_symbol {before : List Char} (hb : before.count labelMark % 2 = 0)
    (i : Instruction) (after : List Char) :
    ∃ rest, code (pieces (before ++ i.symbol :: after)) = code (pieces before) ++ i :: rest := by
  obtain ⟨rest, hrest⟩ := exists_code_append (before ++ [i.symbol]) after
  refine ⟨rest, ?_⟩
  rw [List.append_assoc, List.singleton_append] at hrest
  rw [hrest, code_of_symbol hb (Instruction.ofSymbol?_symbol i), List.append_assoc,
    List.singleton_append]

end Pieces

section Faults

variable {text before after name : List Char} {e : SyntaxError}

/-- No fault begins before this byte offset. -/
def CleanBefore (text : List Char) (offset : Nat) : Prop :=
  ∀ e, Fault text e → offset ≤ e.offset

/-- A fault begins outside labels with a closing bracket or a label mark. -/
theorem Fault.exists_place (h : Fault text e) :
    ∃ before c after, text = before ++ c :: after ∧ before.count labelMark % 2 = 0 ∧
      e.offset = bytes before ∧
      (c = ']' ∧ (∀ p, ¬ Pairs (code (pieces text)) p (code (pieces before)).length) ∨
        c = labelMark ∧ (after.head? = some labelMark ∨ labelMark ∉ after)) := by
  cases h with
  | close ht hb hp => exact ⟨_, _, _, ht, hb, rfl, .inl ⟨rfl, hp⟩⟩
  | emptyLabel ht hb => exact ⟨_, _, _, ht, hb, rfl, .inr ⟨rfl, .inl rfl⟩⟩
  | unclosedLabel ht hb ha => exact ⟨_, _, _, ht, hb, rfl, .inr ⟨rfl, .inr ha⟩⟩

/-- A fault begins before the end of the text. -/
theorem Fault.offset_lt (h : Fault text e) : e.offset < bytes text := by
  obtain ⟨before, c, after, rfl, _, hoffset, _⟩ := h.exists_place
  have hpos := c.utf8Size_pos
  rw [hoffset, bytes_append, ← List.singleton_append, bytes_append, bytes_singleton]
  omega

/-- No fault begins with a character of the code, unless it is a closing bracket without a
partner. -/
theorem CleanBefore.code {c : Char} (h : CleanBefore text (bytes before))
    (ht : text = before ++ c :: after) (hc : c ≠ labelMark)
    (hp : c = ']' → ∃ p, Pairs (code (pieces text)) p (code (pieces before)).length) :
    CleanBefore text (bytes (before ++ [c])) := by
  intro e he
  have hle := h e he
  obtain ⟨place, d, rest, hplace, _, hoffset, hkind⟩ := he.exists_place
  rw [hoffset] at hle ⊢
  obtain ⟨mid, rfl, hmid⟩ := exists_append_of_bytes_le (ht.symm.trans hplace) hle
  cases mid with
  | nil =>
    rw [List.append_nil] at hkind
    cases hmid
    rcases hkind with ⟨hclose, hnone⟩ | ⟨hmark, _⟩
    · obtain ⟨p, hpairs⟩ := hp hclose
      exact absurd hpairs (hnone p)
    · exact absurd hmark hc
  | cons d mid =>
    cases hmid
    rw [← List.singleton_append (l := mid), ← List.append_assoc]
    exact bytes_le_append _ _

/-- No fault begins in a label that is closed and has a name. -/
theorem CleanBefore.label (h : CleanBefore text (bytes before))
    (ht : text = before ++ labelMark :: (name ++ labelMark :: after))
    (hb : before.count labelMark % 2 = 0) (hname : labelMark ∉ name) (hne : name ≠ []) :
    CleanBefore text (bytes (before ++ labelMark :: (name ++ [labelMark]))) := by
  intro e he
  have hle := h e he
  obtain ⟨place, d, rest, hplace, hcount, hoffset, hkind⟩ := he.exists_place
  rw [hoffset] at hle ⊢
  obtain ⟨mid, rfl, hmid⟩ := exists_append_of_bytes_le (ht.symm.trans hplace) hle
  cases mid with
  | nil =>
    -- At the opening mark the label goes on with its name and is closed later.
    cases hmid
    rcases hkind with ⟨hclose, _⟩ | ⟨_, hempty | hunclosed⟩
    · exact absurd hclose (by decide)
    · obtain ⟨first, others, rfl⟩ := List.exists_cons_of_ne_nil hne
      cases hempty
      exact absurd List.mem_cons_self hname
    · exact absurd (List.mem_append_right _ List.mem_cons_self) hunclosed
  | cons d mid =>
    rw [List.cons_append, List.cons.injEq] at hmid
    obtain ⟨rfl, hmid⟩ := hmid
    rcases List.append_eq_append_iff.mp hmid with ⟨more, rfl, hmore⟩ | ⟨more, rfl, _⟩
    · cases more with
      | nil =>
        -- At the closing mark the marks before it are odd in number.
        rw [List.count_append, List.append_nil, List.count_cons_self,
          List.count_eq_zero.mpr hname] at hcount
        omega
      | cons d more =>
        cases hmore
        have hsplit : before ++ labelMark :: (name ++ labelMark :: more) =
            before ++ labelMark :: (name ++ [labelMark]) ++ more := by
          simp only [List.append_assoc, List.cons_append, List.nil_append]
        rw [hsplit]
        exact bytes_le_append _ _
    · rw [List.count_append, List.count_cons_self, List.count_eq_zero.mpr
        fun hmem => hname (List.mem_append_left _ hmem)] at hcount
      omega

/-- A text in the grammar has no fault. -/
theorem InGrammar.not_fault (h : InGrammar text) : ¬ Fault text e := by
  intro he
  cases he with
  | @close before after ht hb hp =>
    obtain ⟨rest, hrest⟩ := exists_code_symbol hb .jumpIfNonZero after
    have hclose : (code (pieces text))[(code (pieces before)).length]? = some .jumpIfNonZero := by
      rw [ht]
      change (code (pieces (before ++ Instruction.jumpIfNonZero.symbol :: after)))[_]? = _
      rw [hrest, List.getElem?_append_right (Nat.le_refl _), Nat.sub_self, List.getElem?_cons_zero]
    obtain ⟨p, hpair | hpair⟩ := h.brackets.exists_partner hclose rfl
    · rw [hpair.opens] at hclose
      cases hclose
    · exact hp p hpair
  | @emptyLabel before after ht hb =>
    have hpieces : pieces text = pieces before ++ [] :: pieces after := by
      rw [ht, pieces, List.splitOn_append_cons_self, List.splitOn_cons_eq_if_modifyHead,
        if_pos (by simp)]
      rfl
    refine h.labels (pieces before).length ?_ ?_
    · rw [length_pieces]
      omega
    · rw [hpieces, List.getElem?_append_right (Nat.le_refl _), Nat.sub_self,
        List.getElem?_cons_zero]
  | @unclosedLabel before after ht hb ha =>
    have hmarks := h.marks
    rw [ht, List.count_append, List.count_cons_self, List.count_eq_zero.mpr ha] at hmarks
    omega

/-- A text in the grammar leaves no bracket open. -/
theorem InGrammar.not_openAt (h : InGrammar text) {offset : Nat} : ¬ OpenAt text offset := by
  rintro ⟨before, after, ht, hb, hnone, _⟩
  obtain ⟨rest, hrest⟩ := exists_code_symbol hb .jumpIfZero after
  have hopen : (code (pieces text))[(code (pieces before)).length]? = some .jumpIfZero := by
    rw [ht]
    change (code (pieces (before ++ Instruction.jumpIfZero.symbol :: after)))[_]? = _
    rw [hrest, List.getElem?_append_right (Nat.le_refl _), Nat.sub_self, List.getElem?_cons_zero]
  obtain ⟨q, hpair | hpair⟩ := h.brackets.exists_partner hopen rfl
  · exact hnone q hpair
  · rw [hpair.closes] at hopen
    cases hopen

end Faults

end Source

end TapeReach
