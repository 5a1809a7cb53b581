import TapeReach.Proofs.Settings.Scanner

/-!
# Block comments by byte offsets

A text is stored in UTF-8, and the quick way to strip its block comments is to
look for the bytes of the two pairs and to cut the text at the offsets where
they are found. A cut inside a character has no result. None of the cuts is of
that kind, since the bytes of a pair are only found between two characters, so
this way always ends with a text, and with the text that a scanner of its
characters leaves.
-/

namespace TapeReach.Directive

/-- A text without its block comments, which are found and cut out by byte offsets. There is no
result when a cut is not between two characters. -/
def stripBytes? (text : String) : Option String :=
  match Text.offsetOf? (Text.bytesOf "(*") (Text.bytesOf text) with
  | none => some text
  | some start =>
    match Text.cut? text start, Text.cut? text (start + 2) with
    | some (before, _), some (_, inside) =>
      match Text.offsetOf? (Text.bytesOf "*)") (Text.bytesOf inside) with
      | none => some before
      | some stop =>
        match h : Text.cut? text (start + 2 + stop + 2) with
        | none => none
        | some (_, behind) =>
          have := Text.utf8ByteSize_of_cut? h
          (stripBytes? behind).map (before ++ ·)
    | _, _ => none
termination_by text.utf8ByteSize

variable {a b : Char} {line text before inside behind : List Char}

/-- A text that is divided at a pair holds the pair between the two parts. -/
theorem append_of_splitAtPair (h : splitAtPair a b text = some (before, behind)) :
    text = before ++ a :: b :: behind := by
  rw [splitAtPair_eq, Option.map_eq_some_iff] at h
  obtain ⟨i, hi, hparts⟩ := h
  obtain ⟨rfl, rfl⟩ := Prod.mk.inj hparts
  obtain ⟨rest, hrest⟩ : [a, b] <+: text.drop i := (Text.offsetOf?_eq_some_iff.mp hi).1
  have hbehind : text.drop (i + 2) = rest := by
    rw [← List.drop_drop, ← hrest]
    rfl
  calc
    text = text.take i ++ text.drop i := (List.take_append_drop i text).symm
    _ = text.take i ++ a :: b :: text.drop (i + 2) := by
      rw [hbehind, ← hrest]
      rfl

/-- The bytes of a pair are found where the pair divides the text. -/
theorem offsetOf?_pair (a b : Char) (text : List Char) :
    Text.offsetOf? (Text.bytesOf (String.ofList [a, b])) (Text.bytesOf (String.ofList text)) =
      (splitAtPair a b text).map fun parts => (String.ofList parts.1).utf8ByteSize := by
  rw [Text.bytesOf_ofList, Text.bytesOf_ofList, Text.offsetOf?_utf8 (List.cons_ne_nil a [b]),
    splitAtPair_eq, Option.map_map]
  congr 1
  funext i
  rw [← Text.bytesOf_ofList]
  rfl

/-- A line can be cut where a part of it ends. -/
theorem cut?_append (front rest : List Char) :
    Text.cut? (String.ofList (front ++ rest)) (String.ofList front).utf8ByteSize =
      some (String.ofList front, String.ofList rest) :=
  Text.cut?_eq_some_iff.mpr ⟨String.ofList_append, rfl⟩

/-- A pair of single bytes has the size two. -/
theorem utf8ByteSize_pair (hbytes : (String.ofList [a, b]).utf8ByteSize = 2)
    (front rest : List Char) :
    (String.ofList (front ++ a :: b :: rest)).utf8ByteSize =
      (String.ofList front).utf8ByteSize + 2 + (String.ofList rest).utf8ByteSize := by
  rw [List.append_cons, List.append_cons, String.ofList_append, String.utf8ByteSize_append,
    List.append_assoc, String.ofList_append, String.utf8ByteSize_append]
  exact congrArg (_ + · + _) hbytes

/-- A line can be cut behind a pair of single bytes. -/
theorem cut?_pair (hbytes : (String.ofList [a, b]).utf8ByteSize = 2) (front rest : List Char) :
    Text.cut? (String.ofList (front ++ a :: b :: rest)) ((String.ofList front).utf8ByteSize + 2) =
      some (String.ofList (front ++ [a, b]), String.ofList rest) := by
  have hsize := utf8ByteSize_pair hbytes front []
  rw [String.ofList_nil, String.utf8ByteSize_empty, Nat.add_zero] at hsize
  have hline : front ++ a :: b :: rest = front ++ [a, b] ++ rest := by
    rw [List.append_assoc]
    rfl
  rw [hline, ← hsize, cut?_append]

/-- A line in which no comment starts is kept. -/
theorem stripBytes?_of_none (h : splitAtPair '(' '*' line = none) :
    stripBytes? (String.ofList line) = some (String.ofList line) := by
  have hopen : Text.offsetOf? (Text.bytesOf "(*") (Text.bytesOf (String.ofList line)) = _ :=
    offsetOf?_pair '(' '*' line
  rw [h, Option.map_none] at hopen
  rw [stripBytes?, hopen]

/-- At an opening pair the line is cut before and behind the pair, and behind the closing pair
if there is one; no cut fails. -/
theorem stripBytes?_of_opening (h : splitAtPair '(' '*' line = some (before, inside)) :
    stripBytes? (String.ofList line) =
      match splitAtPair '*' ')' inside with
      | none => some (String.ofList before)
      | some (_, behind) => (stripBytes? (String.ofList behind)).map (String.ofList before ++ ·) := by
  have hopen : Text.offsetOf? (Text.bytesOf "(*") (Text.bytesOf (String.ofList line)) = _ :=
    offsetOf?_pair '(' '*' line
  have hclose : Text.offsetOf? (Text.bytesOf "*)") (Text.bytesOf (String.ofList inside)) = _ :=
    offsetOf?_pair '*' ')' inside
  have hline := append_of_splitAtPair h
  have hbefore := cut?_append before ('(' :: '*' :: inside)
  have hinside := cut?_pair (a := '(') (b := '*') rfl before inside
  rw [← hline] at hbefore hinside
  rw [h, Option.map_some] at hopen
  rw [stripBytes?, hopen]
  simp only [hbefore, hinside, hclose]
  cases h' : splitAtPair '*' ')' inside with
  | none => rfl
  | some parts =>
    obtain ⟨skipped, behind⟩ := parts
    have hfront : line = before ++ '(' :: '*' :: skipped ++ '*' :: ')' :: behind := by
      rw [hline, append_of_splitAtPair h', List.append_assoc]
      rfl
    have hbehind := cut?_pair (a := '*') (b := ')') rfl (before ++ '(' :: '*' :: skipped) behind
    rw [← hfront] at hbehind
    rw [utf8ByteSize_pair rfl before skipped] at hbehind
    simp only [Option.map_some]
    split
    · rename_i hcut
      rw [hbehind] at hcut
      cases hcut
    · rename_i hcut
      rw [hbehind] at hcut
      cases hcut
      rfl

/-- Cutting by byte offsets never falls inside a character, and it leaves the same text. -/
theorem stripBytes?_ofList (line : List Char) :
    stripBytes? (String.ofList line) = some (String.ofList (stripBlockComments line)) := by
  fun_induction stripBlockComments line with
  | case1 line h => exact stripBytes?_of_none h
  | case2 line before inside h h' => rw [stripBytes?_of_opening h, h']
  | case3 line before inside h skipped behind h' _ ih =>
    rw [stripBytes?_of_opening h, h', String.ofList_append]
    dsimp only
    rw [ih, Option.map_some]

/-- A line without its block comments is what a scanner keeps that reads it character by
character. The comments are determined by the line: each starts at the first opening pair outside
those before it and ends behind the first closing pair that begins at least two characters later,
or else with the line; and what is left are the characters that no comment covers, in order.
Finding and cutting the comments by byte offsets always has a result, and the same one: no cut
is inside a character. -/
theorem stripBlockComments_exact (line : List Char) :
    stripBlockComments line = scan false line ∧
    (∃ spans, (∀ others, Comments line 0 others ↔ others = spans) ∧
      stripBlockComments line = uncovered spans 0 line) ∧
    stripBytes? (String.ofList line) = some (String.ofList (stripBlockComments line)) := by
  refine ⟨stripBlockComments_eq_scan line, ?_, stripBytes?_ofList line⟩
  obtain ⟨spans, hspans⟩ := exists_comments line 0
  refine ⟨spans, fun others => ⟨fun h => h.unique hspans, fun h => h ▸ hspans⟩, ?_⟩
  exact hspans.stripBlockComments_drop

-- An opening pair does not close itself, comments do not nest, and what is left is not read again.
example : scan false "é(*)b*)c((**)*)(*d".toList = "éc(*)".toList := by decide

end TapeReach.Directive
