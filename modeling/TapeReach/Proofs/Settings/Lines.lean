import TapeReach.Proofs.Settings.Field

/-!
# Directive files, line by line

Each line of a directive file is read on its own. What it does to the settings
and to the errors depends on its words only, so a carriage return at its end
and an empty last line make no difference. The errors of a file are therefore
those of its rejected lines, numbered and in order, and in the settings of a
file without errors each field has the value of the last line that sets it.
-/

namespace TapeReach

namespace Text

variable {line : List Char}

/-- A line feed ends the line before it. -/
theorem linesFrom_append_feed (hline : '\n' ∉ line) (current rest : List Char) :
    linesFrom current (line ++ '\n' :: rest) =
      closeLine (line.reverse ++ current) :: linesFrom [] rest := by
  induction line generalizing current with
  | nil => cases current <;> rfl
  | cons c line ih =>
    have hc : c ≠ '\n' := fun heq => hline (heq ▸ List.mem_cons_self)
    have htail : '\n' ∉ line := fun hmem => hline (List.mem_cons_of_mem c hmem)
    rw [List.cons_append, linesFrom, if_neg hc, ih htail, List.reverse_cons, List.append_assoc,
      List.singleton_append]

/-- What is left of a line without a line feed belongs to it. -/
theorem linesFrom_of_not_mem (hline : '\n' ∉ line) (c : Char) (current : List Char) :
    linesFrom (c :: current) line = [(c :: current).reverse ++ line] := by
  induction line generalizing c current with
  | nil =>
    rw [List.append_nil]
    rfl
  | cons d line ih =>
    have hd : d ≠ '\n' := fun heq => hline (heq ▸ List.mem_cons_self)
    have htail : '\n' ∉ line := fun hmem => hline (List.mem_cons_of_mem d hmem)
    have hreverse : (d :: c :: current).reverse ++ line = (c :: current).reverse ++ d :: line := by
      rw [List.reverse_cons, List.append_assoc, List.singleton_append]
    rw [linesFrom, if_neg hd, ih htail, hreverse]

end Text

namespace Settings

open Directive

/-- The settings behind a line. -/
def behindLine (settings : Settings) (line : List Char) : Settings :=
  match ofLine line with
  | .ok (some directive) => directive.apply settings
  | _ => settings

/-- The errors of the line with number `n`. -/
def lineErrors (n : Nat) (line : List Char) : List LineError :=
  match ofLine line with
  | .ok _ => []
  | .error cause => [⟨n, cause⟩]

/-- The errors of some lines, numbered from `n` on. -/
def errorsFrom : (n : Nat) → List (List Char) → List LineError
  | _, [] => []
  | n, line :: rest => lineErrors n line ++ errorsFrom (n + 1) rest

section Reading

variable {lines : List (List Char)} {line : List Char} {n : Nat}

/-- A line changes the settings and adds its errors. -/
theorem readLine_eq (state : Settings × List LineError) (line : List Char) (n : Nat) :
    readLine state (line, n) = (state.1.behindLine line, state.2 ++ lineErrors n line) := by
  unfold readLine behindLine lineErrors
  cases ofLine line with
  | error cause => rfl
  | ok read =>
    rw [List.append_nil]
    cases read <;> rfl

/-- Lines are read one after the other. -/
theorem foldl_readLine (lines : List (List Char)) (n : Nat) (state : Settings × List LineError) :
    (lines.zipIdx n).foldl readLine state =
      (lines.foldl behindLine state.1, state.2 ++ errorsFrom n lines) := by
  induction lines generalizing n state with
  | nil => rw [errorsFrom, List.append_nil]; rfl
  | cons line rest ih =>
    rw [List.zipIdx_cons, List.foldl_cons, ih, readLine_eq, List.foldl_cons, errorsFrom,
      List.append_assoc]

/-- Lines give settings if they have no errors. -/
theorem ofLines_eq_ok_iff {settings : Settings} :
    ofLines lines = .ok settings ↔
      errorsFrom 1 lines = [] ∧ settings = lines.foldl behindLine {} := by
  unfold ofLines
  rw [foldl_readLine, List.nil_append]
  cases errorsFrom 1 lines with
  | nil => simp only [Except.ok.injEq, true_and, eq_comm]
  | cons e rest => simp only [reduceCtorEq, false_and]

/-- Lines give errors if they have some. -/
theorem ofLines_eq_error_iff {errors : List LineError} :
    ofLines lines = .error errors ↔ errors ≠ [] ∧ errors = errorsFrom 1 lines := by
  unfold ofLines
  rw [foldl_readLine, List.nil_append]
  cases errorsFrom 1 lines with
  | nil => exact iff_of_false (fun heq => by cases heq) fun hand => hand.1 hand.2
  | cons e rest =>
    constructor
    · intro heq
      cases heq
      exact ⟨List.cons_ne_nil e rest, rfl⟩
    · intro hand
      rw [hand.2]

/-- A line has an error if it is rejected. -/
theorem mem_lineErrors {e : LineError} :
    e ∈ lineErrors n line ↔ e.line = n ∧ ofLine line = .error e.cause := by
  unfold lineErrors
  cases ofLine line with
  | ok read => simp only [List.not_mem_nil, reduceCtorEq, and_false]
  | error cause =>
    rw [List.mem_singleton, Except.error.injEq]
    constructor
    · intro heq
      rw [heq]
      exact ⟨rfl, rfl⟩
    · intro hand
      rw [← hand.1, hand.2]

/-- The errors of lines are those of the rejected ones, with their numbers. -/
theorem mem_errorsFrom {e : LineError} :
    e ∈ errorsFrom n lines ↔
      ∃ k line, lines[k]? = some line ∧ e.line = n + k ∧ ofLine line = .error e.cause := by
  induction lines generalizing n with
  | nil => simp only [errorsFrom, List.not_mem_nil, List.getElem?_nil, reduceCtorEq, false_and,
      exists_false]
  | cons line rest ih =>
    rw [errorsFrom, List.mem_append, ih, mem_lineErrors]
    constructor
    · rintro (⟨hnumber, hcause⟩ | ⟨k, found, hk, hnumber, hcause⟩)
      · exact ⟨0, line, rfl, hnumber, hcause⟩
      · exact ⟨k + 1, found, hk, by omega, hcause⟩
    · rintro ⟨k, found, hk, hnumber, hcause⟩
      cases k with
      | zero =>
        cases hk
        exact .inl ⟨hnumber, hcause⟩
      | succ k => exact .inr ⟨k, found, hk, by omega, hcause⟩

/-- The errors of lines stand in the order of the lines. -/
theorem pairwise_errorsFrom : (errorsFrom n lines).Pairwise fun e e' => e.line < e'.line := by
  induction lines generalizing n with
  | nil => exact .nil
  | cons line rest ih =>
    have hline : (lineErrors n line).Pairwise fun e e' => e.line < e'.line := by
      unfold lineErrors
      split
      · exact .nil
      · exact List.pairwise_singleton _ _
    refine List.pairwise_append.mpr ⟨hline, ih, fun e he e' he' => ?_⟩
    have hfirst := (mem_lineErrors.mp he).1
    obtain ⟨k, _, _, hnumber, _⟩ := mem_errorsFrom.mp he'
    omega

end Reading

section Values

variable {line : List Char} {field : Field} {value : field.Value}

/-- Behind a line that sets a field, the field has its value. -/
theorem get_behindLine_of_sets (h : Sets line field value) (settings : Settings) :
    field.get (settings.behindLine line) = value := by
  have hkind := lineKind_ofLine line
  unfold behindLine
  generalize ofLine line = read at hkind ⊢
  cases hkind with
  | blank hwords =>
    obtain ⟨words, hwords', _⟩ := h
    rw [hwords] at hwords'
    cases hwords'
  | setting hsets hgives =>
    cases h.field_unique hsets
    cases h.value_unique hsets
    exact hgives.get_apply settings
  | rejected _ hsets => exact absurd h (hsets field value)

/-- Behind a line that does not set a field, the field is unchanged. -/
theorem get_behindLine_of_not_sets (h : ∀ value, ¬ Sets line field value) (settings : Settings) :
    field.get (settings.behindLine line) = field.get settings := by
  have hkind := lineKind_ofLine line
  unfold behindLine
  generalize ofLine line = read at hkind ⊢
  cases hkind with
  | blank _ => rfl
  | @setting other otherValue directive hsets hgives =>
    have hne : field ≠ other := by
      rintro rfl
      exact h otherValue hsets
    exact hgives.get_apply_of_ne hne settings
  | rejected _ _ => rfl

/-- Lines that do not set a field leave it unchanged. -/
theorem get_foldl_of_not_sets {lines : List (List Char)}
    (h : ∀ line ∈ lines, ∀ value, ¬ Sets line field value) (settings : Settings) :
    field.get (lines.foldl behindLine settings) = field.get settings := by
  induction lines generalizing settings with
  | nil => rfl
  | cons line rest ih =>
    rw [List.foldl_cons, ih fun later hlater => h later (List.mem_cons_of_mem line hlater)]
    exact get_behindLine_of_not_sets (h line List.mem_cons_self) settings

/-- A field has the value of the last line that sets it. -/
theorem get_foldl_of_last {before after : List (List Char)} (h : Sets line field value)
    (hafter : ∀ later ∈ after, ∀ value, ¬ Sets later field value) (settings : Settings) :
    field.get ((before ++ line :: after).foldl behindLine settings) = value := by
  rw [List.foldl_append, List.foldl_cons, get_foldl_of_not_sets hafter]
  exact get_behindLine_of_sets h _

end Values

section Joining

/-- Lines with the same words are read in the same way. -/
theorem readLine_congr {line line' : List Char} (h : wordsOf line = wordsOf line')
    (state : Settings × List LineError) (n : Nat) :
    readLine state (line, n) = readLine state (line', n) := by
  unfold readLine
  rw [ofLine_congr h]

/-- A line without words is passed over. -/
theorem readLine_of_wordsOf_nil {line : List Char} (h : wordsOf line = [])
    (state : Settings × List LineError) (n : Nat) : readLine state (line, n) = state := by
  unfold readLine
  rw [ofLine_of_wordsOf_nil h]

/-- The lines of a joined text are read as the lines that were joined. -/
theorem foldl_readLine_join (lines : List String) (hlines : ∀ line ∈ lines, '\n' ∉ line.toList)
    (n : Nat) (state : Settings × List LineError) :
    ((Text.lines ("\n".intercalate lines).toList).zipIdx n).foldl readLine state =
      ((lines.map String.toList).zipIdx n).foldl readLine state := by
  induction lines generalizing n state with
  | nil => rfl
  | cons line rest ih =>
    have hline : '\n' ∉ line.toList := hlines line List.mem_cons_self
    cases rest with
    | nil =>
      rw [String.intercalate_singleton, List.map_singleton]
      generalize line.toList = chars at hline
      cases chars with
      | nil => exact (readLine_of_wordsOf_nil wordsOf_nil state n).symm
      | cons c tail =>
        have hc : c ≠ '\n' := fun heq => hline (heq ▸ List.mem_cons_self)
        have htail : '\n' ∉ tail := fun hmem => hline (List.mem_cons_of_mem c hmem)
        rw [Text.lines, Text.linesFrom, if_neg hc, Text.linesFrom_of_not_mem htail]
        rfl
    | cons next rest =>
      have hfeed : ("\n".intercalate (line :: next :: rest)).toList =
          line.toList ++ '\n' :: ("\n".intercalate (next :: rest)).toList := by
        rw [String.intercalate_cons_cons, String.toList_append, String.toList_append,
          List.append_assoc]
        rfl
      have hwords : wordsOf (Text.closeLine (line.toList.reverse ++ [])) = wordsOf line.toList := by
        rw [List.append_nil, wordsOf_closeLine]
      have hrest := ih fun later hlater => hlines later (List.mem_cons_of_mem line hlater)
      rw [hfeed, Text.lines, Text.linesFrom_append_feed hline, List.zipIdx_cons, List.foldl_cons,
        List.map_cons, List.zipIdx_cons, List.foldl_cons, readLine_congr hwords]
      exact hrest (n + 1) (readLine state (line.toList, n))

/-- A joined text gives what its lines give. -/
theorem parse_join (lines : List String) (hlines : ∀ line ∈ lines, '\n' ∉ line.toList) :
    parse ("\n".intercalate lines) = ofLines (lines.map String.toList) := by
  rw [parse, ofLines, ofLines, foldl_readLine_join lines hlines]

/-- A line alone is read as a file of one line. -/
theorem parse_line {line : String} (hline : '\n' ∉ line.toList) :
    parse line = ofLines [line.toList] := by
  have hjoin := parse_join [line] fun l hl => List.mem_singleton.mp hl ▸ hline
  rwa [String.intercalate_singleton] at hjoin

/-- A line alone has an error exactly if it is rejected. -/
theorem parse_line_eq_error_iff {line : String} (hline : '\n' ∉ line.toList)
    {errors : List LineError} :
    parse line = .error errors ↔
      ∃ cause, errors = [⟨1, cause⟩] ∧ ofLine line.toList = .error cause := by
  rw [parse_line hline, ofLines_eq_error_iff, errorsFrom, errorsFrom, List.append_nil, lineErrors]
  cases ofLine line.toList with
  | ok read =>
    simp only [reduceCtorEq, and_false, exists_false, iff_false, not_and]
    exact fun hne heq => hne heq
  | error cause =>
    simp only [Except.error.injEq]
    constructor
    · exact fun hand => ⟨cause, hand.2, rfl⟩
    · rintro ⟨cause', rfl, rfl⟩
      exact ⟨List.cons_ne_nil _ _, rfl⟩

end Joining

/-- The line is rejected when it is read alone. -/
def Rejected (line : String) : Prop := ∃ errors, parse line = .error errors

/-- The result of a file is made up of those of its lines. -/
structure LineByLine (lines : List String) (result : Except (List LineError) Settings) : Prop where
  /-- There are errors exactly if a line is rejected alone. -/
  rejected : (∃ errors, result = .error errors) ↔ ∃ line ∈ lines, Rejected line
  /-- The numbers of the errors ascend. -/
  ascending : ∀ errors, result = .error errors → errors.Pairwise fun e e' => e.line < e'.line
  /-- The errors are those that the lines have alone, with their numbers from one on. -/
  errors : ∀ errors, result = .error errors → ∀ e, e ∈ errors ↔
    ∃ k line, lines[k]? = some line ∧ e.line = k + 1 ∧ parse line = .error [⟨1, e.cause⟩]
  /-- A field has the value of the last line that sets it. -/
  last : ∀ settings, result = .ok settings → ∀ before line after (field : Field) value,
    lines = before ++ line :: after → Sets line.toList field value →
    (∀ later ∈ after, ∀ other, ¬ Sets later.toList field other) → field.get settings = value
  /-- A field that no line sets has its default. -/
  unset : ∀ settings, result = .ok settings → ∀ field : Field,
    (∀ line ∈ lines, ∀ value, ¬ Sets line.toList field value) → field.get settings = field.get {}

/-- The line is rejected alone, or it sets one field at most and leaves the others. -/
structure SetsAtMostOne (line : String) : Prop where
  /-- A line that is rejected alone has words and sets nothing. -/
  rejected : Rejected line ↔
    wordsOf line.toList ≠ [] ∧ ∀ field value, ¬ Sets line.toList field value
  /-- A line that is rejected alone has one error. -/
  single : ∀ errors, parse line = .error errors → ∃ cause, errors = [⟨1, cause⟩]
  /-- The line does not set two fields. -/
  unique : ∀ field value other otherValue, Sets line.toList field value →
    Sets line.toList other otherValue → field = other
  /-- A field that the line sets has the value behind it, whatever it was before. -/
  set : ∀ field value, Sets line.toList field value → ∀ state n,
    field.get (readLine state (line.toList, n)).1 = value
  /-- A field that the line does not set is as before. -/
  unchanged : ∀ field, (∀ value, ¬ Sets line.toList field value) → ∀ state n,
    field.get (readLine state (line.toList, n)).1 = field.get state.1

/-- A line alone is rejected exactly if no directive is read from it. -/
theorem rejected_iff {line : String} (hline : '\n' ∉ line.toList) :
    Rejected line ↔ ∃ cause, ofLine line.toList = .error cause := by
  constructor
  · rintro ⟨errors, herrors⟩
    obtain ⟨cause, _, hcause⟩ := (parse_line_eq_error_iff hline).mp herrors
    exact ⟨cause, hcause⟩
  · rintro ⟨cause, hcause⟩
    exact ⟨[⟨1, cause⟩], (parse_line_eq_error_iff hline).mpr ⟨cause, rfl, hcause⟩⟩

/-- A line without a line feed sets one field at most. -/
theorem setsAtMostOne_of_not_mem {line : String} (hline : '\n' ∉ line.toList) :
    SetsAtMostOne line where
  rejected := by
    rw [rejected_iff hline]
    have hkind := lineKind_ofLine line.toList
    generalize ofLine line.toList = read at hkind ⊢
    cases hkind with
    | blank hwords =>
      exact iff_of_false (fun h => by obtain ⟨_, h⟩ := h; cases h) fun h => h.1 hwords
    | setting hsets _ =>
      exact iff_of_false (fun h => by obtain ⟨_, h⟩ := h; cases h) fun h => h.2 _ _ hsets
    | rejected hwords hsets => exact iff_of_true ⟨_, rfl⟩ ⟨hwords, hsets⟩
  single errors herrors := by
    obtain ⟨cause, hsingle, _⟩ := (parse_line_eq_error_iff hline).mp herrors
    exact ⟨cause, hsingle⟩
  unique _ _ _ _ h h' := h.field_unique h'
  set field value h state n := by
    rw [readLine_eq]
    exact get_behindLine_of_sets h state.1
  unchanged field h state n := by
    rw [readLine_eq]
    exact get_behindLine_of_not_sets h state.1

/-- The errors of joined lines are those that the lines have alone. -/
theorem mem_errorsFrom_map {lines : List String} (hlines : ∀ line ∈ lines, '\n' ∉ line.toList)
    {e : LineError} :
    e ∈ errorsFrom 1 (lines.map String.toList) ↔
      ∃ k line, lines[k]? = some line ∧ e.line = k + 1 ∧ parse line = .error [⟨1, e.cause⟩] := by
  have halone : ∀ (k : Nat) (line : String), lines[k]? = some line →
      (parse line = .error [⟨1, e.cause⟩] ↔ ofLine line.toList = .error e.cause) := by
    intro k line hk
    rw [parse_line_eq_error_iff (hlines line (List.mem_of_getElem? hk))]
    constructor
    · rintro ⟨cause, hsingle, hcause⟩
      cases hsingle
      exact hcause
    · exact fun hcause => ⟨e.cause, rfl, hcause⟩
  rw [mem_errorsFrom]
  constructor
  · rintro ⟨k, chars, hk, hnumber, hcause⟩
    rw [List.getElem?_map, Option.map_eq_some_iff] at hk
    obtain ⟨line, hline, rfl⟩ := hk
    exact ⟨k, line, hline, by omega, (halone k line hline).mpr hcause⟩
  · rintro ⟨k, line, hline, hnumber, hcause⟩
    refine ⟨k, line.toList, ?_, by omega, (halone k line hline).mp hcause⟩
    rw [List.getElem?_map, hline, Option.map_some]

/-- Joined lines have errors exactly if one of them is rejected alone. -/
theorem exists_error_iff_rejected {lines : List String}
    (hlines : ∀ line ∈ lines, '\n' ∉ line.toList) :
    (∃ errors, ofLines (lines.map String.toList) = .error errors) ↔
      ∃ line ∈ lines, Rejected line := by
  constructor
  · rintro ⟨errors, herrors⟩
    obtain ⟨hne, rfl⟩ := ofLines_eq_error_iff.mp herrors
    obtain ⟨e, he⟩ := List.exists_mem_of_ne_nil _ hne
    obtain ⟨k, line, hline, _, hcause⟩ := (mem_errorsFrom_map hlines).mp he
    exact ⟨line, List.mem_of_getElem? hline, _, hcause⟩
  · rintro ⟨line, hmem, errors, herrors⟩
    obtain ⟨k, hk⟩ := List.getElem?_of_mem hmem
    obtain ⟨cause, rfl⟩ := (setsAtMostOne_of_not_mem (hlines line hmem)).single errors herrors
    have he : ⟨k + 1, cause⟩ ∈ errorsFrom 1 (lines.map String.toList) :=
      (mem_errorsFrom_map hlines).mpr ⟨k, line, hk, rfl, herrors⟩
    exact ⟨_, ofLines_eq_error_iff.mpr ⟨List.ne_nil_of_mem he, rfl⟩⟩

/-- A directive file is read line by line. It has errors exactly if one of its lines is
rejected alone, and these are the errors of the rejected lines alone, in ascending order
and with the numbers of the lines. Otherwise each field has the value of the last line that
sets it, or its default. Each line sets one field at most and leaves all others as they
are. -/
theorem parse_line_by_line (lines : List String) (hlines : ∀ line ∈ lines, '\n' ∉ line.toList) :
    LineByLine lines (parse ("\n".intercalate lines)) ∧ ∀ line ∈ lines, SetsAtMostOne line := by
  refine ⟨?_, fun line hline => setsAtMostOne_of_not_mem (hlines line hline)⟩
  rw [parse_join lines hlines]
  constructor
  case rejected => exact exists_error_iff_rejected hlines
  case ascending =>
    intro errors herrors
    rw [(ofLines_eq_error_iff.mp herrors).2]
    exact pairwise_errorsFrom
  case errors =>
    intro errors herrors e
    rw [(ofLines_eq_error_iff.mp herrors).2]
    exact mem_errorsFrom_map hlines
  case last =>
    intro settings hsettings before line after field value hsplit hsets hafter
    rw [(ofLines_eq_ok_iff.mp hsettings).2, hsplit, List.map_append, List.map_cons]
    refine get_foldl_of_last hsets (fun later hlater => ?_) {}
    obtain ⟨name, hname, rfl⟩ := List.mem_map.mp hlater
    exact hafter name hname
  case unset =>
    intro settings hsettings field hnone
    rw [(ofLines_eq_ok_iff.mp hsettings).2]
    refine get_foldl_of_not_sets (fun chars hchars => ?_) {}
    obtain ⟨line, hline, rfl⟩ := List.mem_map.mp hchars
    exact hnone line hline

/-- A file with two rejected lines, one of them behind a comment. -/
def faulty : List String := ["LABEL in\r", "MAX_READS lots", "(* all *) WORKERS 0"]

/-- A file that sets one field twice. -/
def revised : List String := ["MAX_READS 5", "MAX_READS 3"]

/-- Both rejected lines are reported, and of two lines for one field the last one counts. -/
theorem faulty_line_by_line :
    parse ("\n".intercalate faulty) =
        .error [⟨2, .invalidValue "MAX_READS" "lots"⟩, ⟨3, .noWorkers⟩] ∧
      LineByLine faulty (parse ("\n".intercalate faulty)) ∧ SetsAtMostOne "LABEL in\r" ∧
      parse ("\n".intercalate revised) = .ok { io.maxReads := some 3 } ∧
      LineByLine revised (parse ("\n".intercalate revised)) := by
  have hlabel : ofLine "LABEL in\r".toList = .ok (some (.label "in")) := by
    rw [ofLine, stripBlockComments_of_none rfl]
    rfl
  have hlots : ofLine "MAX_READS lots".toList = .error (.invalidValue "MAX_READS" "lots") := by
    rw [ofLine, stripBlockComments_of_none rfl]
    rfl
  have hworkers : ofLine "(* all *) WORKERS 0".toList = .error .noWorkers := by
    rw [ofLine, stripBlockComments_of_closed rfl rfl, stripBlockComments_of_none rfl]
    rfl
  have hfive : ofLine "MAX_READS 5".toList = .ok (some (.maxReads 5)) := by
    rw [ofLine, stripBlockComments_of_none rfl]
    rfl
  have hthree : ofLine "MAX_READS 3".toList = .ok (some (.maxReads 3)) := by
    rw [ofLine, stripBlockComments_of_none rfl]
    rfl
  have hfaulty : ∀ line ∈ faulty, '\n' ∉ line.toList := by decide
  have hrevised : ∀ line ∈ revised, '\n' ∉ line.toList := by decide
  have herrors : parse ("\n".intercalate faulty) =
      .error [⟨2, .invalidValue "MAX_READS" "lots"⟩, ⟨3, .noWorkers⟩] := by
    rw [parse_join faulty hfaulty, ofLines_eq_error_iff]
    simp only [faulty, List.map_cons, List.map_nil, errorsFrom, lineErrors, hlabel, hlots, hworkers]
    exact ⟨List.cons_ne_nil _ _, rfl⟩
  have hsettings : parse ("\n".intercalate revised) = .ok { io.maxReads := some 3 } := by
    rw [parse_join revised hrevised, ofLines_eq_ok_iff]
    simp only [revised, List.map_cons, List.map_nil, errorsFrom, lineErrors, List.foldl_cons,
      List.foldl_nil, behindLine, hfive, hthree]
    exact ⟨rfl, rfl⟩
  obtain ⟨hread, hline⟩ := parse_line_by_line faulty hfaulty
  exact ⟨herrors, hread, hline _ List.mem_cons_self, hsettings,
    (parse_line_by_line revised hrevised).1⟩

end Settings

end TapeReach
