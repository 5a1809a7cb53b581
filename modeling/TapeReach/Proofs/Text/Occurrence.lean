import Mathlib.Data.List.Basic
import Mathlib.Order.Bounds.Basic
import Mathlib.Order.Lattice.Nat

/-!
# Where a pattern occurs, in characters and in bytes

A pattern is found at the least offset at which it occurs. In UTF-8 the first
byte of a character is told from the others, and the bytes of a character tell
the character, so a search for the bytes of a pattern finds the first place of
the pattern itself and never one inside a character.
-/

namespace TapeReach.Text

variable {α : Type}

/-- A pattern stands at an offset of a text. -/
def OccursAt (pattern text : List α) (offset : Nat) : Prop := pattern <+: text.drop offset

/-- The offset at which a pattern occurs for the first time. -/
def offsetOf? [DecidableEq α] (pattern : List α) : List α → Option Nat
  | [] => if pattern = [] then some 0 else none
  | x :: text =>
    if pattern <+: x :: text then some 0 else (offsetOf? pattern text).map (· + 1)

section Occurrence

variable {pattern text : List α} {start i : Nat}

/-- Offsets into a text without its first elements are counted from there. -/
theorem occursAt_drop :
    OccursAt pattern (text.drop start) i ↔ OccursAt pattern text (start + i) := by
  rw [OccursAt, OccursAt, List.drop_drop]

/-- A pattern ends where the text ends at the latest. -/
theorem OccursAt.add_length_le (h : OccursAt pattern text i) (hne : pattern ≠ []) :
    i + pattern.length ≤ text.length := by
  have hpos := List.length_pos_iff.mpr hne
  have hle := h.length_le
  rw [List.length_drop] at hle
  omega

/-- A pattern with which a text begins has no earlier place. -/
theorem isLeast_zero (h : pattern <+: text) : IsLeast {j | OccursAt pattern text j} 0 :=
  ⟨h, fun _ _ => Nat.zero_le _⟩

/-- A pattern that occurs from a position on has a first occurrence there. -/
theorem exists_isLeast_or (pattern text : List α) (start : Nat) :
    (∀ i, start ≤ i → ¬ OccursAt pattern text i) ∨
      ∃ i, IsLeast {i | start ≤ i ∧ OccursAt pattern text i} i := by
  by_cases h : {i | start ≤ i ∧ OccursAt pattern text i}.Nonempty
  · exact .inr ⟨_, Nat.sInf_mem h, fun _ hi => Nat.sInf_le hi⟩
  · exact .inl fun i hle hi => h ⟨i, hle, hi⟩

variable [DecidableEq α]

/-- A pattern whose offset is not found does not occur. -/
theorem offsetOf?_eq_none_iff : offsetOf? pattern text = none ↔ ∀ i, ¬ OccursAt pattern text i := by
  induction text with
  | nil =>
    rw [offsetOf?]
    split
    · rename_i hp
      exact iff_of_false nofun fun h => h 0 (by rw [hp]; exact List.nil_prefix)
    · rename_i hp
      refine iff_of_true rfl fun i hi => hp ?_
      rwa [OccursAt, List.drop_nil, List.prefix_nil] at hi
  | cons x text ih =>
    rw [offsetOf?]
    split
    · rename_i hp
      exact iff_of_false nofun fun h => h 0 hp
    · rename_i hp
      rw [Option.map_eq_none_iff, ih]
      refine ⟨fun h i => ?_, fun h i => h (i + 1)⟩
      cases i with
      | zero => exact hp
      | succ i => exact h i

/-- The offset that is found is the least at which the pattern occurs. -/
theorem offsetOf?_eq_some_iff :
    offsetOf? pattern text = some i ↔ IsLeast {j | OccursAt pattern text j} i := by
  induction text generalizing i with
  | nil =>
    rw [offsetOf?]
    split
    · rename_i hp
      have hzero : IsLeast {j | OccursAt pattern [] j} 0 := isLeast_zero (hp ▸ List.nil_prefix)
      rw [Option.some.injEq]
      exact ⟨fun h => h ▸ hzero, fun h => hzero.unique h⟩
    · rename_i hp
      refine iff_of_false nofun fun h => hp ?_
      have hi : pattern <+: [].drop i := h.1
      rwa [List.drop_nil, List.prefix_nil] at hi
  | cons x text ih =>
    rw [offsetOf?]
    split
    · rename_i hp
      rw [Option.some.injEq]
      exact ⟨fun h => h ▸ isLeast_zero hp, fun h => (isLeast_zero hp).unique h⟩
    · rename_i hp
      simp only [Option.map_eq_some_iff, ih]
      constructor
      · rintro ⟨k, hk, rfl⟩
        refine ⟨hk.1, fun j hj => ?_⟩
        cases j with
        | zero => exact absurd hj hp
        | succ j => exact Nat.succ_le_succ (hk.2 hj)
      · intro h
        cases i with
        | zero => exact absurd h.1 hp
        | succ k => exact ⟨k, ⟨h.1, fun j hj => Nat.le_of_succ_le_succ (h.2 hj)⟩, rfl⟩

/-- The first occurrence from a position on is found in the text from there on. -/
theorem offsetOf?_drop_of_isLeast (h : IsLeast {j | start ≤ j ∧ OccursAt pattern text j} i) :
    offsetOf? pattern (text.drop start) = some (i - start) := by
  obtain ⟨⟨hle, hi⟩, hleast⟩ := h
  refine offsetOf?_eq_some_iff.mpr ⟨occursAt_drop.mpr ?_, fun k hk => ?_⟩
  · rwa [Nat.add_sub_cancel' hle]
  · have hik : i ≤ start + k := hleast ⟨Nat.le_add_right start k, occursAt_drop.mp hk⟩
    omega

/-- Where none of the first elements begins the pattern, it is found behind them. -/
theorem offsetOf?_append {x : α} {skipped : List α} (h : ∀ y ∈ skipped, y ≠ x) :
    offsetOf? (x :: pattern) (skipped ++ text) =
      (offsetOf? (x :: pattern) text).map (skipped.length + ·) := by
  induction skipped with
  | nil => simp only [List.nil_append, List.length_nil, Nat.zero_add, Option.map_id']
  | cons y skipped ih =>
    have hp : ¬ x :: pattern <+: y :: (skipped ++ text) := by
      intro hp
      exact h y List.mem_cons_self (List.cons_prefix_cons.mp hp).1.symm
    rw [List.cons_append, offsetOf?, if_neg hp, ih fun z hz => h z (List.mem_cons_of_mem y hz),
      Option.map_map]
    congr 1
    funext i
    simp only [Function.comp_apply, List.length_cons]
    omega

/-- Where none of the elements before an occurrence begins the pattern, it is the first one. -/
theorem offsetOf?_append_of_prefix {x : α} {skipped : List α} (h : ∀ y ∈ skipped, y ≠ x)
    (hp : x :: pattern <+: text) :
    offsetOf? (x :: pattern) (skipped ++ text) = some skipped.length := by
  rw [offsetOf?_append h, offsetOf?_eq_some_iff.mpr (isLeast_zero hp), Option.map_some,
    Nat.add_zero]

end Occurrence

/-- The bytes of a text in UTF-8. -/
def utf8 (text : List Char) : List UInt8 := text.flatMap String.utf8EncodeChar

section Encoding

variable {c d : Char} {pattern text : List Char}

@[simp]
theorem utf8_nil : utf8 [] = [] := rfl

@[simp]
theorem utf8_cons (c : Char) (text : List Char) :
    utf8 (c :: text) = String.utf8EncodeChar c ++ utf8 text := List.flatMap_cons

/-- Of the bytes of a character the first one is marked as such, and no other is. -/
theorem exists_utf8EncodeChar (c : Char) :
    ∃ lead tail, String.utf8EncodeChar c = lead :: tail ∧ lead.IsUTF8FirstByte ∧
      ∀ b ∈ tail, ¬ b.IsUTF8FirstByte := by
  have hmarked : ∀ i (hi : i < (String.utf8EncodeChar c).length),
      (String.utf8EncodeChar c)[i].IsUTF8FirstByte ↔ i = 0 :=
    fun _ _ => UInt8.isUTF8FirstByte_getElem_utf8EncodeChar
  cases h : String.utf8EncodeChar c with
  | nil => exact absurd h String.utf8EncodeChar_ne_nil
  | cons lead tail =>
    rw [h] at hmarked
    refine ⟨lead, tail, rfl, (hmarked 0 (Nat.zero_lt_succ _)).mpr rfl, fun b hb hlead => ?_⟩
    obtain ⟨i, hi, rfl⟩ := List.mem_iff_getElem.mp hb
    exact Nat.succ_ne_zero i ((hmarked (i + 1) (Nat.succ_lt_succ hi)).mp hlead)

/-- Bytes that begin with those of one character begin with those of no other. -/
theorem utf8EncodeChar_append_inj {xs ys : List UInt8}
    (h : String.utf8EncodeChar c ++ xs = String.utf8EncodeChar d ++ ys) : c = d ∧ xs = ys := by
  have hdecode : ∀ (e : Char) (zs : List UInt8),
      (String.utf8EncodeChar e ++ zs).toByteArray.utf8DecodeChar? 0 = some e := by
    intro e zs
    rw [List.toByteArray_append]
    exact ByteArray.utf8DecodeChar?_utf8EncodeChar_append
  have hcd : c = d := by
    have hc := hdecode c xs
    rw [h, hdecode d ys] at hc
    exact (Option.some.inj hc).symm
  subst hcd
  exact ⟨rfl, List.append_cancel_left h⟩

/-- A text begins with a pattern when its bytes begin with those of the pattern. -/
theorem utf8_prefix_utf8_iff : utf8 pattern <+: utf8 text ↔ pattern <+: text := by
  induction pattern generalizing text with
  | nil => exact iff_of_true List.nil_prefix List.nil_prefix
  | cons c pattern ih =>
    cases text with
    | nil =>
      have hne : utf8 (c :: pattern) ≠ [] := by
        rw [utf8_cons]
        exact List.append_ne_nil_of_left_ne_nil String.utf8EncodeChar_ne_nil _
      exact iff_of_false (fun h => hne (List.prefix_nil.mp h))
        fun h => List.cons_ne_nil c pattern (List.prefix_nil.mp h)
    | cons d text =>
      rw [List.cons_prefix_cons]
      constructor
      · rintro ⟨behind, h⟩
        rw [utf8_cons, utf8_cons, List.append_assoc] at h
        obtain ⟨rfl, hrest⟩ := utf8EncodeChar_append_inj h
        exact ⟨rfl, ih.mp ⟨behind, hrest⟩⟩
      · rintro ⟨rfl, h⟩
        rw [utf8_cons, utf8_cons, List.prefix_append_right_inj]
        exact ih.mpr h

/-- The bytes of a pattern are found where the pattern is found, and so between two characters. -/
theorem offsetOf?_utf8 (h : pattern ≠ []) (text : List Char) :
    offsetOf? (utf8 pattern) (utf8 text) =
      (offsetOf? pattern text).map fun i => (utf8 (text.take i)).length := by
  obtain ⟨d, pattern, rfl⟩ := List.exists_cons_of_ne_nil h
  obtain ⟨first, others, hd, hfirst, -⟩ := exists_utf8EncodeChar d
  induction text with
  | nil => simp only [utf8_cons, hd, List.cons_append, utf8_nil, offsetOf?, reduceCtorEq, if_false,
      Option.map_none]
  | cons c text ih =>
    obtain ⟨lead, tail, hc, -, htail⟩ := exists_utf8EncodeChar c
    by_cases hp : d :: pattern <+: c :: text
    · have hbytes := utf8_prefix_utf8_iff.mpr hp
      rw [offsetOf?, if_pos hp, Option.map_some, List.take_zero, utf8_nil, List.length_nil]
      rw [utf8_cons c, hc, List.cons_append] at hbytes ⊢
      rw [offsetOf?, if_pos hbytes]
    -- The bytes behind the first one are passed over, since the pattern begins with a byte
    -- that is marked as a first one.
    · have hbytes := mt utf8_prefix_utf8_iff.mp hp
      have hpassed : ∀ b ∈ tail, b ≠ first := fun b hb heq => htail b hb (heq ▸ hfirst)
      rw [offsetOf?, if_neg hp, Option.map_map]
      rw [utf8_cons c, hc, List.cons_append] at hbytes ⊢
      rw [offsetOf?, if_neg hbytes]
      rw [utf8_cons d, hd, List.cons_append] at ih ⊢
      rw [offsetOf?_append hpassed, ih, Option.map_map, Option.map_map]
      congr 1
      funext i
      simp only [Function.comp_apply, List.take_succ_cons, utf8_cons, hc, List.length_append,
        List.length_cons]
      omega

end Encoding

/-- The bytes of a text. -/
def bytesOf (text : String) : List UInt8 := text.toByteArray.data.toList

/-- The two parts of a text at a byte offset, unless that lies inside a character or behind the
end. -/
def cut? (text : String) (offset : Nat) : Option (String × String) :=
  if h : (⟨offset⟩ : String.Pos.Raw).IsValid text then
    let place := text.pos ⟨offset⟩ h
    some ((text.sliceTo place).copy, (text.sliceFrom place).copy)
  else none

section Offset

variable {text before behind : String} {offset : Nat}

/-- The bytes of a text are those of its characters. -/
theorem bytesOf_ofList (text : List Char) : bytesOf (String.ofList text) = utf8 text := by
  rw [bytesOf, String.toByteArray_ofList, List.utf8Encode, List.data_toByteArray]
  rfl

/-- A text can be cut where a part of it ends, and nowhere else. -/
theorem cut?_eq_some_iff :
    cut? text offset = some (before, behind) ↔
      text = before ++ behind ∧ offset = before.utf8ByteSize := by
  unfold cut?
  split
  · rename_i hvalid
    have hsplits := (text.pos ⟨offset⟩ hvalid).splits
    rw [Option.some.injEq, Prod.mk.injEq]
    constructor
    · rintro ⟨rfl, rfl⟩
      exact ⟨hsplits.eq_append, congrArg String.Pos.Raw.byteIdx hsplits.offset_eq_rawEndPos⟩
    · rintro ⟨htext, hoffset⟩
      exact hsplits.eq ⟨htext, congrArg String.Pos.Raw.mk hoffset⟩
  · rename_i hvalid
    refine iff_of_false nofun ?_
    rintro ⟨rfl, rfl⟩
    exact hvalid (String.Pos.Raw.isValid_iff_exists_append.mpr ⟨before, behind, rfl, rfl⟩)

/-- What stands behind a cut is shorter than the text by the offset. -/
theorem utf8ByteSize_of_cut? (h : cut? text offset = some (before, behind)) :
    text.utf8ByteSize = offset + behind.utf8ByteSize := by
  obtain ⟨rfl, rfl⟩ := cut?_eq_some_iff.mp h
  exact String.utf8ByteSize_append

end Offset

end TapeReach.Text
