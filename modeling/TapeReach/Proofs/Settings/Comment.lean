import TapeReach.Settings.Directive

/-!
# Comments and line ends

A comment starts at the first occurrence of its two characters. A carriage
return at the end of a line neither starts nor ends a comment, and it is a
blank, so the words of the line are the same with and without it.
-/

namespace TapeReach

/-- A blank at the end of a text belongs to no word. -/
theorem Text.wordsFrom_concat {c : Char} (hc : isBlank c = true) (current text : List Char) :
    wordsFrom current (text ++ [c]) = wordsFrom current text := by
  induction text generalizing current with
  | nil => simp only [List.nil_append, wordsFrom, hc, if_true, gathered, List.append_nil]
  | cons d text ih =>
    rw [List.cons_append, wordsFrom, wordsFrom]
    split
    · rw [ih]
    · exact ih _

namespace Directive

/-- The words of a line, without its comments. -/
def wordsOf (line : List Char) : List String :=
  Text.words (stripBlockComments (cutLineComment line))

variable {a b c : Char} {line before inside behind skipped : List Char}

/-- A character that cannot end a pair is added behind the first pair. -/
theorem splitAtPair_concat (hc : c ≠ b) (text : List Char) :
    splitAtPair a b (text ++ [c]) =
      (splitAtPair a b text).map fun parts => (parts.1, parts.2 ++ [c]) := by
  fun_induction splitAtPair a b text with
  | case1 d e rest hpair =>
    rw [List.cons_append, List.cons_append, splitAtPair, if_pos hpair]
    rfl
  | case2 d e rest hpair ih =>
    rw [List.cons_append, List.cons_append, splitAtPair, if_neg hpair, ← List.cons_append, ih,
      Option.map_map, Option.map_map]
    rfl
  | case3 text hshort =>
    cases text with
    | nil => rfl
    | cons d tail =>
      cases tail with
      | nil =>
        have hpair : ¬ (d = a ∧ c = b) := fun hand => hc hand.2
        rw [List.singleton_append, splitAtPair, if_neg hpair]
        rfl
      | cons e rest => exact absurd rfl (hshort d e rest)

/-- A line in which no comment starts is kept. -/
theorem stripBlockComments_of_none (h : splitAtPair '(' '*' line = none) :
    stripBlockComments line = line := by
  unfold stripBlockComments
  split
  · rfl
  · rename_i hsome
    rw [h] at hsome
    cases hsome

/-- A comment that is not closed runs to the end of the line. -/
theorem stripBlockComments_of_unclosed (h : splitAtPair '(' '*' line = some (before, inside))
    (h' : splitAtPair '*' ')' inside = none) : stripBlockComments line = before := by
  unfold stripBlockComments
  split
  · rename_i hnone
    rw [h] at hnone
    cases hnone
  · rename_i hsome
    rw [h] at hsome
    cases hsome
    split
    · rfl
    · rename_i hclosed
      rw [h'] at hclosed
      cases hclosed

/-- A comment that is closed is left out, and the line goes on behind it. -/
theorem stripBlockComments_of_closed (h : splitAtPair '(' '*' line = some (before, inside))
    (h' : splitAtPair '*' ')' inside = some (skipped, behind)) :
    stripBlockComments line = before ++ stripBlockComments behind := by
  rw [stripBlockComments]
  split
  · rename_i hnone
    rw [h] at hnone
    cases hnone
  · rename_i hsome
    rw [h] at hsome
    cases hsome
    split
    · rename_i hunclosed
      rw [h'] at hunclosed
      cases hunclosed
    · rename_i hclosed
      rw [h'] at hclosed
      cases hclosed
      rfl

/-- An empty line has no words. -/
theorem wordsOf_nil : wordsOf [] = [] := by
  have hstrip : stripBlockComments (cutLineComment []) = [] := stripBlockComments_of_none rfl
  rw [wordsOf, hstrip]
  rfl

/-- What is read from a line depends on its words only. -/
theorem ofLine_congr {line line' : List Char} (h : wordsOf line = wordsOf line') :
    ofLine line = ofLine line' := by
  unfold wordsOf at h
  rw [ofLine, ofLine, h]

/-- Nothing is read from a line without words. -/
theorem ofLine_of_wordsOf_nil (h : wordsOf line = []) : ofLine line = .ok none := by
  unfold wordsOf at h
  rw [ofLine, h]

/-- The words of a line are read as a directive. -/
theorem ofLine_of_wordsOf_cons {keyword : String} {words : List String}
    (h : wordsOf line = keyword :: words) : ofLine line = (ofWords keyword words).map some := by
  unfold wordsOf at h
  rw [ofLine, h]

/-- A character that cannot end a pair is cut with the line comment or kept at the end. -/
theorem cutLineComment_concat (hc : c ≠ '*') (line : List Char) :
    cutLineComment (line ++ [c]) = cutLineComment line ∨
      cutLineComment (line ++ [c]) = cutLineComment line ++ [c] := by
  have hsplit : splitAtPair '\\' '*' (line ++ [c]) = _ := splitAtPair_concat hc line
  cases h : splitAtPair '\\' '*' line with
  | none =>
    rw [h, Option.map_none] at hsplit
    simp only [cutLineComment, h, hsplit, or_true]
  | some parts =>
    rw [h, Option.map_some] at hsplit
    simp only [cutLineComment, h, hsplit, true_or]

/-- A character that cannot end a pair is stripped with a block comment or kept at the end. -/
theorem stripBlockComments_concat (hstar : c ≠ '*') (hclose : c ≠ ')') (line : List Char) :
    stripBlockComments (line ++ [c]) = stripBlockComments line ∨
      stripBlockComments (line ++ [c]) = stripBlockComments line ++ [c] := by
  have hopening : ∀ text, splitAtPair '(' '*' (text ++ [c]) = _ := splitAtPair_concat hstar
  have hclosing : ∀ text, splitAtPair '*' ')' (text ++ [c]) = _ := splitAtPair_concat hclose
  fun_induction stripBlockComments line with
  | case1 line h =>
    have hconcat := hopening line
    rw [h, Option.map_none] at hconcat
    exact .inr (stripBlockComments_of_none hconcat)
  | case2 line before inside h h' =>
    have hconcat := hopening line
    have hinside := hclosing inside
    rw [h, Option.map_some] at hconcat
    rw [h', Option.map_none] at hinside
    exact .inl (stripBlockComments_of_unclosed hconcat hinside)
  | case3 line before inside h skipped behind h' _ ih =>
    have hconcat := hopening line
    have hinside := hclosing inside
    rw [h, Option.map_some] at hconcat
    rw [h', Option.map_some] at hinside
    rw [stripBlockComments_of_closed hconcat hinside]
    rcases ih with hcut | hkept
    · exact .inl (by rw [hcut])
    · exact .inr (by rw [hkept, List.append_assoc])

/-- A carriage return at the end of a line does not change its words. -/
theorem wordsOf_concat_return (line : List Char) : wordsOf (line ++ ['\r']) = wordsOf line := by
  have hblank : Text.isBlank '\r' = true := by decide
  have hstar : '\r' ≠ '*' := by decide
  have hclose : '\r' ≠ ')' := by decide
  have hkeep : ∀ text, Text.words (text ++ ['\r']) = Text.words text :=
    Text.wordsFrom_concat hblank []
  have hstrip : ∀ text, Text.words (stripBlockComments (text ++ ['\r'])) =
      Text.words (stripBlockComments text) := by
    intro text
    rcases stripBlockComments_concat hstar hclose text with h | h
    · rw [h]
    · rw [h, hkeep]
  unfold wordsOf
  rcases cutLineComment_concat hstar line with h | h
  · rw [h]
  · rw [h, hstrip]

/-- Closing a line does not change its words. -/
theorem wordsOf_closeLine (line : List Char) :
    wordsOf (Text.closeLine line.reverse) = wordsOf line := by
  unfold Text.closeLine
  split
  · rename_i rest hreverse
    have hline : line = rest.reverse ++ ['\r'] := by
      rw [← List.reverse_reverse line, hreverse, List.reverse_cons]
    rw [hline, wordsOf_concat_return]
  · rw [List.reverse_reverse]

end Directive

end TapeReach
