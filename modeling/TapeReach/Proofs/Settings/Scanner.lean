import TapeReach.Proofs.Settings.Comment
import TapeReach.Proofs.Text.Occurrence

/-!
# Block comments, character by character

A line without its block comments can be read off in two other ways. A scanner
reads it from left to right and remembers only whether it is inside a comment.
And the comments can be marked as spans of positions: one starts at the first
opening pair that is not in an earlier comment, and it ends behind the first
closing pair that begins two characters later or further on, or else with the
line. Both ways leave the same characters.
-/

namespace TapeReach.Directive

/-- The characters outside block comments, from left to right. -/
def scan : (inside : Bool) → List Char → List Char
  | _, [] => []
  | false, '(' :: '*' :: rest => scan true rest
  | false, c :: rest => c :: scan false rest
  | true, '*' :: ')' :: rest => scan false rest
  | true, _ :: rest => scan true rest

/-- Positions from `start` on and before `stop`. -/
structure Span where
  /-- The first position. -/
  start : Nat
  /-- The position behind the last one. -/
  stop : Nat

/-- Whether a position belongs to the span. -/
def Span.covers (span : Span) (i : Nat) : Bool := span.start ≤ i && i < span.stop

/-- The characters that no span covers, when the first one has the position `start`. -/
def uncovered (spans : List Span) (start : Nat) (text : List Char) : List Char :=
  ((text.zipIdx start).filter fun entry => !spans.any (·.covers entry.2)).map Prod.fst

/-- The block comments of a line from position `start` on, which is not inside a comment. -/
inductive Comments (line : List Char) : (start : Nat) → List Span → Prop
  /-- No comment starts. -/
  | clear {start : Nat} (hopen : ∀ i, start ≤ i → ¬ Text.OccursAt ['(', '*'] line i) :
      Comments line start []
  /-- A comment starts at `i` and runs to the end of the line. -/
  | unclosed {start i : Nat} (hopen : IsLeast {i | start ≤ i ∧ Text.OccursAt ['(', '*'] line i} i)
      (hclose : ∀ j, i + 2 ≤ j → ¬ Text.OccursAt ['*', ')'] line j) :
      Comments line start [⟨i, line.length⟩]
  /-- A comment starts at `i` and ends with the pair at `j`. -/
  | closed {start i j : Nat} {spans : List Span}
      (hopen : IsLeast {i | start ≤ i ∧ Text.OccursAt ['(', '*'] line i} i)
      (hclose : IsLeast {j | i + 2 ≤ j ∧ Text.OccursAt ['*', ')'] line j} j)
      (hrest : Comments line (j + 2) spans) :
      Comments line start (⟨i, j + 2⟩ :: spans)

section Scan

variable {c : Char} {text : List Char}

/-- A text without two characters has none or one. -/
theorem eq_nil_or_singleton (h : ∀ c d rest, text = c :: d :: rest → False) :
    text = [] ∨ ∃ c, text = [c] := by
  cases text with
  | nil => exact .inl rfl
  | cons c text =>
    cases text with
    | nil => exact .inr ⟨c, rfl⟩
    | cons d rest => exact (h c d rest rfl).elim

/-- A character outside a comment that does not open one is kept. -/
theorem scan_false_cons (h : ∀ rest, c = '(' → text = '*' :: rest → False) :
    scan false (c :: text) = c :: scan false text := scan.eq_3 c text h

/-- A character inside a comment that does not close it is passed over. -/
theorem scan_true_cons (h : ∀ rest, c = '*' → text = ')' :: rest → False) :
    scan true (c :: text) = scan true text := scan.eq_5 c text h

/-- Outside a comment all is kept up to the next opening pair. -/
theorem scan_outside (text : List Char) :
    scan false text =
      match splitAtPair '(' '*' text with
      | none => text
      | some (before, inside) => before ++ scan true inside := by
  fun_induction splitAtPair '(' '*' text with
  | case1 c d rest hpair =>
    obtain ⟨rfl, rfl⟩ := hpair
    rfl
  | case2 c d rest hpair ih =>
    rw [scan_false_cons fun rest hc hd => hpair ⟨hc, (List.cons.inj hd).1⟩, ih]
    cases splitAtPair '(' '*' (d :: rest) <;> rfl
  | case3 text hshort =>
    rcases eq_nil_or_singleton hshort with rfl | ⟨c, rfl⟩
    · rfl
    · rw [scan_false_cons fun _ _ h => List.cons_ne_nil _ _ h.symm]
      rfl

/-- Inside a comment all is passed over up to the next closing pair. -/
theorem scan_inside (text : List Char) :
    scan true text =
      match splitAtPair '*' ')' text with
      | none => []
      | some (_, behind) => scan false behind := by
  fun_induction splitAtPair '*' ')' text with
  | case1 c d rest hpair =>
    obtain ⟨rfl, rfl⟩ := hpair
    rfl
  | case2 c d rest hpair ih =>
    rw [scan_true_cons fun rest hc hd => hpair ⟨hc, (List.cons.inj hd).1⟩, ih]
    cases splitAtPair '*' ')' (d :: rest) <;> rfl
  | case3 text hshort =>
    rcases eq_nil_or_singleton hshort with rfl | ⟨c, rfl⟩
    · rfl
    · rw [scan_true_cons fun _ _ h => List.cons_ne_nil _ _ h.symm]
      rfl

/-- Cutting out one comment after the other leaves what the scanner keeps. -/
theorem stripBlockComments_eq_scan (line : List Char) :
    stripBlockComments line = scan false line := by
  fun_induction stripBlockComments line with
  | case1 line h => rw [scan_outside, h]
  | case2 line before inside h h' =>
    simp only [scan_outside, h, scan_inside, h', List.append_nil]
  | case3 line before inside h skipped behind h' _ ih =>
    rw [scan_outside line, h]
    dsimp only
    rw [scan_inside inside, h', ih]

end Scan

section Uncovered

variable {span : Span} {spans : List Span} {start : Nat} {text : List Char}

/-- What is kept of two parts of a text is kept of the whole. -/
theorem uncovered_append (spans : List Span) (start : Nat) (text rest : List Char) :
    uncovered spans start (text ++ rest) =
      uncovered spans start text ++ uncovered spans (start + text.length) rest := by
  rw [uncovered, List.zipIdx_append, List.filter_append, List.map_append, uncovered, uncovered]

/-- A text before all spans is kept. -/
theorem uncovered_before (h : ∀ span ∈ spans, start + text.length ≤ span.start) :
    uncovered spans start text = text := by
  have hkept : ∀ entry ∈ text.zipIdx start, (!spans.any (·.covers entry.2)) = true := by
    intro entry hentry
    have hlt := List.snd_lt_add_of_mem_zipIdx hentry
    rw [Bool.not_eq_true', List.any_eq_false]
    intro span hspan hcovers
    have hle := h span hspan
    simp only [Span.covers, Bool.and_eq_true, decide_eq_true_iff] at hcovers
    omega
  rw [uncovered, List.filter_eq_self.mpr hkept, List.zipIdx_map_fst]

/-- A text inside a span is left out. -/
theorem uncovered_inside (hstart : span.start ≤ start) (hstop : start + text.length ≤ span.stop) :
    uncovered (span :: spans) start text = [] := by
  have hleft : ∀ entry ∈ text.zipIdx start, ¬ (!(span :: spans).any (·.covers entry.2)) = true := by
    intro entry hentry
    have hlt := List.snd_lt_add_of_mem_zipIdx hentry
    have hle := List.le_snd_of_mem_zipIdx hentry
    have hcovers : span.covers entry.2 = true := by
      simp only [Span.covers, Bool.and_eq_true, decide_eq_true_iff]
      omega
    rw [List.any_cons, hcovers, Bool.true_or]
    exact Bool.false_ne_true
  rw [uncovered, List.filter_eq_nil_iff.mpr hleft, List.map_nil]

/-- A span is of no account to a text behind it. -/
theorem uncovered_behind (h : span.stop ≤ start) :
    uncovered (span :: spans) start text = uncovered spans start text := by
  have hsame : ∀ entry ∈ text.zipIdx start,
      (!(span :: spans).any (·.covers entry.2)) = !spans.any (·.covers entry.2) := by
    intro entry hentry
    have hle := List.le_snd_of_mem_zipIdx hentry
    have hcovers : span.covers entry.2 = false := by
      simp only [Span.covers, Bool.and_eq_false_iff, decide_eq_false_iff_not]
      omega
    rw [List.any_cons, hcovers, Bool.false_or]
  rw [uncovered, List.filter_congr hsame, uncovered]

/-- The part of a text between two positions. -/
theorem exists_part {i j : Nat} (hij : i ≤ j) (hj : j ≤ text.length) :
    ∃ part, (text.drop i).take (j - i) = part ∧ text.drop i = part ++ text.drop j ∧
      i + part.length = j := by
  refine ⟨_, rfl, ?_, ?_⟩
  · have hsplit := List.take_append_drop (j - i) (text.drop i)
    rw [List.drop_drop, Nat.add_sub_cancel' hij] at hsplit
    exact hsplit.symm
  · rw [List.length_take, List.length_drop]
    omega

/-- Only the part inside its first span is missing from a text up to where that span ends. -/
theorem uncovered_cons {i stop : Nat} (hstart : start ≤ i) (hstop : i ≤ stop)
    (hlength : stop ≤ text.length) (h : ∀ span ∈ spans, stop ≤ span.start) :
    uncovered (⟨i, stop⟩ :: spans) start (text.drop start) =
      (text.drop start).take (i - start) ++ uncovered spans stop (text.drop stop) := by
  obtain ⟨before, hbefore, hfirst, hi⟩ := exists_part hstart (hstop.trans hlength)
  obtain ⟨inside, _, hsecond, hend⟩ := exists_part hstop hlength
  have hkept : ∀ span ∈ (⟨i, stop⟩ :: spans : List Span), start + before.length ≤ span.start := by
    intro span hspan
    rcases List.mem_cons.mp hspan with rfl | hspan
    · exact hi.le
    · exact hi.le.trans (hstop.trans (h span hspan))
  rw [hbefore, hfirst, uncovered_append, uncovered_before hkept, hi, hsecond, uncovered_append, hend,
    uncovered_inside (Nat.le_refl i) hend.le, List.nil_append, uncovered_behind (Nat.le_refl stop)]

end Uncovered

section Comments

variable {a b : Char} {line : List Char} {spans others : List Span} {start i : Nat}

/-- A text is divided at the first occurrence of a pair. -/
theorem splitAtPair_eq (a b : Char) (text : List Char) :
    splitAtPair a b text =
      (Text.offsetOf? [a, b] text).map fun i => (text.take i, text.drop (i + 2)) := by
  fun_induction splitAtPair a b text with
  | case1 c d rest hpair =>
    obtain ⟨rfl, rfl⟩ := hpair
    rw [Text.offsetOf?, if_pos ⟨rest, rfl⟩]
    rfl
  | case2 c d rest hpair ih =>
    have hp : ¬ [a, b] <+: c :: d :: rest := by
      intro hp
      obtain ⟨hc, hrest⟩ := List.cons_prefix_cons.mp hp
      exact hpair ⟨hc.symm, (List.cons_prefix_cons.mp hrest).1.symm⟩
    rw [Text.offsetOf?, if_neg hp, ih, Option.map_map, Option.map_map]
    rfl
  | case3 text hshort =>
    have hnone : Text.offsetOf? [a, b] text = none := by
      refine Text.offsetOf?_eq_none_iff.mpr fun i hi => ?_
      have hlength : i + 2 ≤ text.length := hi.add_length_le (List.cons_ne_nil a [b])
      rcases eq_nil_or_singleton hshort with rfl | ⟨c, rfl⟩
      · exact Nat.not_succ_le_zero _ hlength
      · rw [List.length_singleton] at hlength
        omega
    rw [hnone, Option.map_none]

/-- A pair that does not occur from a position on divides nothing there. -/
theorem splitAtPair_of_forall_not (h : ∀ i, start ≤ i → ¬ Text.OccursAt [a, b] line i) :
    splitAtPair a b (line.drop start) = none := by
  have hnone : Text.offsetOf? [a, b] (line.drop start) = none :=
    Text.offsetOf?_eq_none_iff.mpr fun i hi =>
      h (start + i) (Nat.le_add_right start i) (Text.occursAt_drop.mp hi)
  rw [splitAtPair_eq, hnone, Option.map_none]

/-- The first occurrence of a pair from a position on divides the line there. -/
theorem splitAtPair_of_isLeast (h : IsLeast {i | start ≤ i ∧ Text.OccursAt [a, b] line i} i) :
    splitAtPair a b (line.drop start) =
      some ((line.drop start).take (i - start), line.drop (i + 2)) := by
  have hle : start ≤ i := h.1.1
  rw [splitAtPair_eq, Text.offsetOf?_drop_of_isLeast h, Option.map_some, List.drop_drop]
  congr 3
  omega

/-- The comments from a position on start there or behind it. -/
theorem Comments.le_start (h : Comments line start spans) : ∀ span ∈ spans, start ≤ span.start := by
  induction h with
  | clear => exact fun _ hspan => (List.not_mem_nil hspan).elim
  | unclosed hopen _ =>
    intro span hspan
    rw [List.mem_singleton.mp hspan]
    exact hopen.1.1
  | closed hopen hclose _ ih =>
    intro span hspan
    have hi := hopen.1.1
    have hj := hclose.1.1
    rcases List.mem_cons.mp hspan with rfl | hspan
    · exact hi
    · have hle := ih span hspan
      omega

/-- A line has its comments in one way only. -/
theorem Comments.unique (h : Comments line start spans) (h' : Comments line start others) :
    spans = others := by
  induction h generalizing others with
  | clear hopen =>
    cases h' with
    | clear => rfl
    | unclosed hopen' => exact absurd hopen'.1.2 (hopen _ hopen'.1.1)
    | closed hopen' => exact absurd hopen'.1.2 (hopen _ hopen'.1.1)
  | unclosed hopen hclose =>
    cases h' with
    | clear hopen' => exact absurd hopen.1.2 (hopen' _ hopen.1.1)
    | unclosed hopen' => rw [hopen.unique hopen']
    | closed hopen' hclose' =>
      cases hopen.unique hopen'
      exact absurd hclose'.1.2 (hclose _ hclose'.1.1)
  | closed hopen hclose _ ih =>
    cases h' with
    | clear hopen' => exact absurd hopen.1.2 (hopen' _ hopen.1.1)
    | unclosed hopen' hclose' =>
      cases hopen.unique hopen'
      exact absurd hclose.1.2 (hclose' _ hclose.1.1)
    | closed hopen' hclose' hrest' =>
      cases hopen.unique hopen'
      cases hclose.unique hclose'
      rw [ih hrest']

/-- Every line has its comments. -/
theorem exists_comments (line : List Char) (start : Nat) : ∃ spans, Comments line start spans := by
  induction hn : line.length - start using Nat.strong_induction_on generalizing start with
  | _ n ih =>
    rcases Text.exists_isLeast_or ['(', '*'] line start with hopen | ⟨i, hopen⟩
    · exact ⟨_, .clear hopen⟩
    · rcases Text.exists_isLeast_or ['*', ')'] line (i + 2) with hclose | ⟨j, hclose⟩
      · exact ⟨_, .unclosed hopen hclose⟩
      · have hi := hopen.1.1
        have hj := hclose.1.1
        have hlength : j + 2 ≤ line.length := hclose.1.2.add_length_le (List.cons_ne_nil _ _)
        obtain ⟨spans, hrest⟩ := ih (line.length - (j + 2)) (by omega) (j + 2) rfl
        exact ⟨_, .closed hopen hclose hrest⟩

/-- Stripping a line from a position outside the comments on leaves what no comment covers. -/
theorem Comments.stripBlockComments_drop (h : Comments line start spans) :
    stripBlockComments (line.drop start) = uncovered spans start (line.drop start) := by
  induction h with
  | clear hopen =>
    rw [stripBlockComments_of_none (splitAtPair_of_forall_not hopen),
      uncovered_before fun _ hspan => (List.not_mem_nil hspan).elim]
  | @unclosed start i hopen hclose =>
    have hlength := hopen.1.2.add_length_le (List.cons_ne_nil _ _)
    rw [stripBlockComments_of_unclosed (splitAtPair_of_isLeast hopen)
      (splitAtPair_of_forall_not hclose),
      uncovered_cons hopen.1.1 ((Nat.le_add_right i _).trans hlength) (Nat.le_refl _)
        fun _ hspan => (List.not_mem_nil hspan).elim,
      List.drop_length]
    exact (List.append_nil _).symm
  | @closed start i j spans hopen hclose hrest ih =>
    have hij : i + 2 ≤ j := hclose.1.1
    have hlength : j + 2 ≤ line.length := hclose.1.2.add_length_le (List.cons_ne_nil _ _)
    rw [stripBlockComments_of_closed (splitAtPair_of_isLeast hopen) (splitAtPair_of_isLeast hclose),
      ih, uncovered_cons hopen.1.1 (by omega) hlength hrest.le_start]

end Comments

end TapeReach.Directive
