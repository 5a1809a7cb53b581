import TapeReach.Graph.Dot
import TapeReach.Proofs.Text.Occurrence

/-!
# Reading a quoted text back

A quoted text ends at the first quote that is not preceded by an odd number of
backslashes. Between the quotes a backslash stands together with the character
behind it for a quote, a backslash or a line feed. Whatever characters a text
is made of, it is read back when it stands between quotes in its written form,
and the written form has no line feed.
-/

namespace TapeReach.Dot

/-- Number of backslashes at the end of a text. -/
def backslashes (text : List Char) : Nat := (text.reverse.takeWhile (· == '\\')).length

/-- The text up to the first quote that is not preceded by an odd number of backslashes, and the
text behind that quote. The characters of `before` have been read. -/
def closeQuote? : (before text : List Char) → Option (List Char × List Char)
  | _, [] => none
  | before, c :: rest =>
    if c = '"' ∧ backslashes before % 2 ≠ 1 then some (before, rest)
    else closeQuote? (before ++ [c]) rest

/-- The text whose written form this is. -/
def decode? : List Char → Option (List Char)
  | [] => some []
  | '\\' :: '"' :: rest => (decode? rest).map ('"' :: ·)
  | '\\' :: '\\' :: rest => (decode? rest).map ('\\' :: ·)
  | '\\' :: 'n' :: rest => (decode? rest).map ('\n' :: ·)
  | '\\' :: _ => none
  | c :: rest => (decode? rest).map (c :: ·)

/-- What stands before the text of a label. -/
def labelMark : List Char := "label=\"".toList

/-- The text of the first label on a line, and what stands behind its closing quote. -/
def labelOf? (line : List Char) : Option (List Char × List Char) :=
  (Text.offsetOf? labelMark line).bind fun offset =>
    (closeQuote? [] (line.drop (offset + labelMark.length))).bind fun quoted =>
      (decode? quoted.1).map fun text => (text, quoted.2)

/-- A line whose first label has a text, in its written form. -/
def labelled (front text behind : List Char) : List Char :=
  front ++ (labelMark ++ (text.flatMap escapeChar ++ '"' :: behind))

variable {c d : Char} {before front text behind : List Char}

/-- A character is written as itself, or as a backslash and a character that is not a line feed
and from which it is read back. -/
theorem escapeChar_cases (c : Char) :
    (escapeChar c = [c] ∧ c ≠ '"' ∧ c ≠ '\\' ∧ c ≠ '\n') ∨
      ∃ d, escapeChar c = ['\\', d] ∧ d ≠ '\n' ∧
        ∀ rest, decode? ('\\' :: d :: rest) = (decode? rest).map (c :: ·) := by
  unfold escapeChar
  split
  · rename_i hc
    subst hc
    exact .inr ⟨'"', rfl, by decide, fun _ => rfl⟩
  · rename_i hquote
    split
    · rename_i hc
      subst hc
      exact .inr ⟨'\\', rfl, by decide, fun _ => rfl⟩
    · rename_i hbackslash
      split
      · rename_i hc
        subst hc
        exact .inr ⟨'n', rfl, by decide, fun _ => rfl⟩
      · rename_i hfeed
        exact .inl ⟨rfl, hquote, hbackslash, hfeed⟩

/-- One more backslash is counted. -/
theorem backslashes_concat_backslash (text : List Char) :
    backslashes (text ++ ['\\']) = backslashes text + 1 := by
  simp only [backslashes, List.reverse_append, List.reverse_singleton, List.singleton_append,
    BEq.rfl, List.takeWhile_cons_of_pos, List.length_cons]

/-- Behind another character the count starts again. -/
theorem backslashes_concat (hc : c ≠ '\\') (text : List Char) : backslashes (text ++ [c]) = 0 := by
  simp [backslashes, hc]

/-- No character closes a quoted text in its written form, and the number of backslashes behind
it is even again. -/
theorem closeQuote?_escapeChar (h : backslashes before % 2 = 0) (c : Char) (rest : List Char) :
    closeQuote? before (escapeChar c ++ rest) = closeQuote? (before ++ escapeChar c) rest ∧
      backslashes (before ++ escapeChar c) % 2 = 0 := by
  rcases escapeChar_cases c with ⟨hc, hquote, hbackslash, _⟩ | ⟨d, hc, _, _⟩
  · have hcount := backslashes_concat hbackslash before
    rw [hc, List.singleton_append, closeQuote?, if_neg fun hand => hquote hand.1, hcount]
    exact ⟨rfl, rfl⟩
  · have hcount := backslashes_concat_backslash before
    have hfirst : ¬ ('\\' = '"' ∧ backslashes before % 2 ≠ 1) := fun hand => absurd hand.1 (by decide)
    have hsecond : ¬ (d = '"' ∧ backslashes (before ++ ['\\']) % 2 ≠ 1) := by
      rw [hcount]
      omega
    have hpair : before ++ ['\\', d] = before ++ ['\\'] ++ [d] := by rw [List.append_assoc]; rfl
    rw [hc, List.cons_append, List.singleton_append, closeQuote?, if_neg hfirst, closeQuote?,
      if_neg hsecond, hpair]
    refine ⟨rfl, ?_⟩
    by_cases hd : d = '\\'
    · rw [hd, backslashes_concat_backslash, hcount]
      omega
    · rw [backslashes_concat hd]

/-- A text in its written form ends at the quote behind it. -/
theorem closeQuote?_escaped (h : backslashes before % 2 = 0) (text rest : List Char) :
    closeQuote? before (text.flatMap escapeChar ++ '"' :: rest) =
      some (before ++ text.flatMap escapeChar, rest) := by
  induction text generalizing before with
  | nil =>
    have hclose : '"' = '"' ∧ backslashes before % 2 ≠ 1 := ⟨rfl, by omega⟩
    rw [List.flatMap_nil, List.nil_append, List.append_nil, closeQuote?, if_pos hclose]
  | cons c text ih =>
    obtain ⟨hread, hcount⟩ :=
      closeQuote?_escapeChar h c (text.flatMap escapeChar ++ '"' :: rest)
    rw [List.flatMap_cons, List.append_assoc, hread, ih hcount, List.append_assoc]

/-- A plain character stands for itself. -/
theorem decode?_cons (hc : c ≠ '\\') (rest : List Char) :
    decode? (c :: rest) = (decode? rest).map (c :: ·) :=
  decode?.eq_6 c rest (fun _ h _ => hc h) (fun _ h _ => hc h) (fun _ h _ => hc h) hc

/-- A text is read back from its written form. -/
theorem decode?_escaped (text : List Char) : decode? (text.flatMap escapeChar) = some text := by
  induction text with
  | nil => rfl
  | cons c text ih =>
    rw [List.flatMap_cons]
    rcases escapeChar_cases c with ⟨hc, _, hbackslash, _⟩ | ⟨d, hc, _, hdecode⟩
    · rw [hc, List.singleton_append, decode?_cons hbackslash, ih, Option.map_some]
    · rw [hc, List.cons_append, List.singleton_append, hdecode, ih, Option.map_some]

/-- The written form of a text has no line feed. -/
theorem feed_not_mem_escaped (text : List Char) : '\n' ∉ text.flatMap escapeChar := by
  intro hmem
  obtain ⟨c, _, hc⟩ := List.mem_flatMap.mp hmem
  rcases escapeChar_cases c with ⟨heq, _, _, hfeed⟩ | ⟨d, heq, hfeed, _⟩
  · rw [heq, List.mem_singleton] at hc
    exact hfeed hc.symm
  · rw [heq, List.mem_cons, List.mem_singleton] at hc
    rcases hc with hc | hc
    · exact absurd hc (by decide)
    · exact hfeed hc.symm

/-- The text of a label is read back when nothing before it can be taken for a label. -/
theorem labelOf?_labelled (hfront : ∀ c ∈ front, c ≠ 'l') (text behind : List Char) :
    labelOf? (labelled front text behind) = some (text, behind) := by
  have hmark : labelMark = 'l' :: "abel=\"".toList := rfl
  have hoffset : Text.offsetOf? labelMark (labelled front text behind) = some front.length := by
    rw [labelled, hmark]
    exact Text.offsetOf?_append_of_prefix hfront (List.prefix_append _ _)
  have hdrop : (labelled front text behind).drop (front.length + labelMark.length) =
      text.flatMap escapeChar ++ '"' :: behind := by
    rw [labelled, ← List.append_assoc, ← List.length_append, List.drop_left]
  have hclose : closeQuote? [] (text.flatMap escapeChar ++ '"' :: behind) = _ :=
    closeQuote?_escaped rfl text behind
  rw [labelOf?, hoffset, Option.bind_some, hdrop, hclose, Option.bind_some, List.nil_append,
    decode?_escaped, Option.map_some]

/-- A label brings no line feed into a line. -/
theorem feed_not_mem_labelled (hfront : '\n' ∉ front) (hbehind : '\n' ∉ behind) :
    '\n' ∉ labelled front text behind := by
  have hmark : '\n' ∉ labelMark := by decide
  have hquote : '\n' ≠ '"' := by decide
  simp only [labelled, List.mem_append, List.mem_cons, not_or]
  exact ⟨hfront, hmark, feed_not_mem_escaped text, hquote, hbehind⟩

end TapeReach.Dot
