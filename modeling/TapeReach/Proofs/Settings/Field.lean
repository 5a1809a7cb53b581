import TapeReach.Proofs.Settings.Comment

/-!
# What a line sets

Settings have eight fields that a line can set. Each has a keyword and a rule
for the words behind it, which says when they stand for a value and for which
one. A line without words sets nothing, a line that follows the rule of its
keyword sets that one field, and every other line is rejected.
-/

namespace TapeReach

/-- The fields of settings that a line can set. -/
inductive Field where
  | label
  | maxReads
  | eofByte
  | noChangeOnEof
  | maxStates
  | timeLimit
  | progressInterval
  | workers
  deriving DecidableEq

namespace Field

/-- The first word of a line that sets the field. -/
def keyword : Field → String
  | label => "LABEL"
  | maxReads => "MAX_READS"
  | eofByte => "EOF_BYTE"
  | noChangeOnEof => "NO_CHANGE_ON_EOF"
  | maxStates => "MAX_STATES"
  | timeLimit => "TIME_LIMIT"
  | progressInterval => "PROGRESS_INTERVAL"
  | workers => "WORKERS"

/-- The values of the field. -/
def Value : Field → Type
  | label => Option String
  | maxReads => Option Nat
  | eofByte => UInt8
  | noChangeOnEof => Bool
  | maxStates => Option Nat
  | timeLimit => Option Duration
  | progressInterval => Nat
  | workers => Option Nat

/-- The value of the field. -/
def get (settings : Settings) : (field : Field) → field.Value
  | label => settings.label
  | maxReads => settings.io.maxReads
  | eofByte => settings.io.eofByte
  | noChangeOnEof => settings.io.noChangeOnEof
  | maxStates => settings.maxStates
  | timeLimit => settings.timeLimit
  | progressInterval => settings.progressInterval
  | workers => settings.graphWorkers

/-- The number below a bound that a single word stands for. -/
def number? (bound : Nat) : List String → Option Nat
  | [word] => Text.natural? bound word
  | _ => none

/-- The value that the words behind the keyword stand for. -/
def spelled? : (field : Field) → List String → Option field.Value
  | label, [name] => some (some name)
  | label, _ => none
  | maxReads, words => (number? Text.wordBound words).map some
  | eofByte, words => (number? Text.byteBound words).map UInt8.ofNat
  | noChangeOnEof, [] => some true
  | noChangeOnEof, [word] => Directive.truth? word
  | noChangeOnEof, _ => none
  | maxStates, words => (number? Text.wordBound words).map some
  | timeLimit, words => (number? Text.wordBound words).map fun n => some (Duration.ofSeconds n)
  | progressInterval, words => number? Text.wordBound words
  | workers, words => ((number? Text.wordBound words).filter (0 < ·)).map some

/-- Two fields have different keywords. -/
theorem keyword_injective {field other : Field} (h : field.keyword = other.keyword) :
    field = other := by
  revert h
  cases field <;> cases other <;> decide

end Field

namespace Directive

/-- The directive gives the field this value. -/
inductive Gives : Directive → (field : Field) → field.Value → Prop
  | label (name : String) : Gives (.label name) .label (some name)
  | maxReads (n : Nat) : Gives (.maxReads n) .maxReads (some n)
  | eofByte (byte : UInt8) : Gives (.eofByte byte) .eofByte byte
  | noChangeOnEof (value : Bool) : Gives (.noChangeOnEof value) .noChangeOnEof value
  | maxStates (n : Nat) : Gives (.maxStates n) .maxStates (some n)
  | timeLimit (n : Nat) : Gives (.timeLimit n) .timeLimit (some (Duration.ofSeconds n))
  | progressInterval (n : Nat) : Gives (.progressInterval n) .progressInterval n
  | workers (n : Nat) : Gives (.workers n) .workers (some n)

variable {directive : Directive} {field : Field} {value : field.Value}

/-- A directive gives its field the value. -/
theorem Gives.get_apply (h : directive.Gives field value) (settings : Settings) :
    field.get (directive.apply settings) = value := by
  cases h <;> rfl

/-- A directive leaves all other fields as they are. -/
theorem Gives.get_apply_of_ne (h : directive.Gives field value) {other : Field}
    (hne : other ≠ field) (settings : Settings) :
    other.get (directive.apply settings) = other.get settings := by
  cases h <;> cases other <;>
    simp only [ne_eq, not_true_eq_false, reduceCtorEq, not_false_eq_true] at hne <;> rfl

section Words

variable {words : List String} {bound n : Nat} {keyword : String}

/-- A number that is spelled is read. -/
theorem number_of_some (h : Field.number? bound words = some n) :
    number bound keyword words = .ok n := by
  unfold Field.number? at h
  split at h
  · simp only [number, h]
  · cases h

/-- Words that spell no number are refused. -/
theorem exists_number_error (keyword : String) (h : Field.number? bound words = none) :
    ∃ cause, number bound keyword words = .error cause := by
  match words, h with
  | [], _ => exact ⟨_, rfl⟩
  | [word], h =>
    change Text.natural? bound word = none at h
    exact ⟨.invalidValue keyword word, by simp only [number, h]⟩
  | _ :: _ :: _, _ => exact ⟨_, rfl⟩

/-- A directive is made from a number that is spelled. -/
theorem map_number_of_some (make : Nat → Directive) (h : Field.number? bound words = some n) :
    (number bound keyword words).map make = .ok (make n) := by
  rw [number_of_some h, Except.map]

/-- No directive is made from words that spell no number. -/
theorem exists_map_number_error (make : Nat → Directive) (h : Field.number? bound words = none) :
    ∃ cause, (number bound keyword words).map make = .error cause := by
  obtain ⟨cause, hcause⟩ := exists_number_error keyword h
  exact ⟨cause, by rw [hcause, Except.map]⟩

/-- Words that follow the rule of a keyword are a directive for its field. -/
theorem exists_ofWords (h : field.spelled? words = some value) :
    ∃ directive, ofWords field.keyword words = .ok directive ∧ directive.Gives field value := by
  cases field with
  | label =>
    match words, h with
    | [name], h =>
      cases h
      exact ⟨_, rfl, .label name⟩
  | maxReads =>
    obtain ⟨n, hn, rfl⟩ := Option.map_eq_some_iff.mp h
    exact ⟨_, map_number_of_some .maxReads hn, .maxReads n⟩
  | eofByte =>
    obtain ⟨n, hn, rfl⟩ := Option.map_eq_some_iff.mp h
    exact ⟨_, map_number_of_some (fun n => .eofByte (UInt8.ofNat n)) hn, .eofByte _⟩
  | noChangeOnEof =>
    match words, h with
    | [], h =>
      cases h
      exact ⟨_, rfl, .noChangeOnEof true⟩
    | [word], h =>
      change truth? word = some value at h
      refine ⟨.noChangeOnEof value, ?_, .noChangeOnEof value⟩
      simp only [ofWords, Field.keyword, h]
  | maxStates =>
    obtain ⟨n, hn, rfl⟩ := Option.map_eq_some_iff.mp h
    exact ⟨_, map_number_of_some .maxStates hn, .maxStates n⟩
  | timeLimit =>
    obtain ⟨n, hn, rfl⟩ := Option.map_eq_some_iff.mp h
    exact ⟨_, map_number_of_some .timeLimit hn, .timeLimit n⟩
  | progressInterval => exact ⟨_, map_number_of_some .progressInterval h, .progressInterval _⟩
  | workers =>
    obtain ⟨n, hn, rfl⟩ := Option.map_eq_some_iff.mp h
    obtain ⟨hn, hpos⟩ := Option.filter_eq_some_iff.mp hn
    cases n with
    | zero => cases hpos
    | succ n =>
      refine ⟨_, ?_, .workers (n + 1)⟩
      simp only [ofWords, Field.keyword, number_of_some hn]

/-- Words that do not follow the rule of their keyword are refused. -/
theorem exists_ofWords_error (h : field.spelled? words = none) :
    ∃ cause, ofWords field.keyword words = .error cause := by
  cases field with
  | label =>
    match words, h with
    | [], _ => exact ⟨_, rfl⟩
    | _ :: _ :: _, _ => exact ⟨_, rfl⟩
  | maxReads => exact exists_map_number_error .maxReads (Option.map_eq_none_iff.mp h)
  | eofByte =>
    exact exists_map_number_error (fun n => .eofByte (UInt8.ofNat n)) (Option.map_eq_none_iff.mp h)
  | noChangeOnEof =>
    match words, h with
    | [word], h =>
      change truth? word = none at h
      refine ⟨.notBoolean word, ?_⟩
      simp only [ofWords, Field.keyword, h]
    | _ :: _ :: _, _ => exact ⟨_, rfl⟩
  | maxStates => exact exists_map_number_error .maxStates (Option.map_eq_none_iff.mp h)
  | timeLimit => exact exists_map_number_error .timeLimit (Option.map_eq_none_iff.mp h)
  | progressInterval => exact exists_map_number_error .progressInterval h
  | workers =>
    have hfilter := Option.map_eq_none_iff.mp h
    cases hn : Field.number? Text.wordBound words with
    | none =>
      obtain ⟨cause, hcause⟩ := exists_number_error Field.workers.keyword hn
      refine ⟨cause, ?_⟩
      simp only [ofWords, Field.keyword] at hcause ⊢
      rw [hcause]
    | some n =>
      -- The number is spelled, so it is refused for being zero.
      cases n with
      | zero =>
        refine ⟨.noWorkers, ?_⟩
        simp only [ofWords, Field.keyword, number_of_some hn]
      | succ n =>
        rw [hn] at hfilter
        simp only [Option.filter_some, Nat.succ_pos, decide_true, if_true, reduceCtorEq] at hfilter

/-- A word that is no keyword is refused. -/
theorem ofWords_of_ne_keyword (h : ∀ field : Field, keyword ≠ field.keyword) :
    ofWords keyword words = .error (.unknown keyword) := by
  unfold ofWords
  split
  · exact absurd rfl (h .label)
  · exact absurd rfl (h .maxReads)
  · exact absurd rfl (h .eofByte)
  · exact absurd rfl (h .noChangeOnEof)
  · exact absurd rfl (h .maxStates)
  · exact absurd rfl (h .timeLimit)
  · exact absurd rfl (h .progressInterval)
  · exact absurd rfl (h .workers)
  · rfl

end Words

/-- The line sets the field to the value: it begins with the keyword of the field, and the
value is what its other words stand for. -/
def Sets (line : List Char) (field : Field) (value : field.Value) : Prop :=
  ∃ words, wordsOf line = field.keyword :: words ∧ field.spelled? words = some value

/-- What a line can be. -/
inductive LineKind (line : List Char) : Except DirectiveError (Option Directive) → Prop
  /-- The line has no words. -/
  | blank (hwords : wordsOf line = []) : LineKind line (.ok none)
  /-- The line sets a field. -/
  | setting {field : Field} {value : field.Value} {directive : Directive}
      (hsets : Sets line field value) (hgives : directive.Gives field value) :
      LineKind line (.ok (some directive))
  /-- The line has words and sets nothing. -/
  | rejected {cause : DirectiveError} (hwords : wordsOf line ≠ [])
      (hsets : ∀ field value, ¬ Sets line field value) : LineKind line (.error cause)

section Lines

variable {line : List Char} {other : Field} {otherValue : other.Value}

/-- A line sets at most one field. -/
theorem Sets.field_unique (h : Sets line field value) (h' : Sets line other otherValue) :
    field = other := by
  obtain ⟨words, hwords, _⟩ := h
  obtain ⟨words', hwords', _⟩ := h'
  rw [hwords, List.cons.injEq] at hwords'
  exact Field.keyword_injective hwords'.1

/-- A line sets a field to one value. -/
theorem Sets.value_unique {value' : field.Value} (h : Sets line field value)
    (h' : Sets line field value') : value = value' := by
  obtain ⟨words, hwords, hvalue⟩ := h
  obtain ⟨words', hwords', hvalue'⟩ := h'
  rw [hwords, List.cons.injEq] at hwords'
  rw [← hwords'.2, hvalue] at hvalue'
  exact Option.some.inj hvalue'

/-- Every line is read as what it is. -/
theorem lineKind_ofLine (line : List Char) : LineKind line (ofLine line) := by
  cases hwords : wordsOf line with
  | nil =>
    rw [ofLine_of_wordsOf_nil hwords]
    exact .blank hwords
  | cons keyword words =>
    have hne : wordsOf line ≠ [] := by
      rw [hwords]
      exact List.cons_ne_nil keyword words
    rw [ofLine_of_wordsOf_cons hwords]
    by_cases hkeyword : ∃ field : Field, keyword = field.keyword
    · obtain ⟨field, rfl⟩ := hkeyword
      cases hvalue : field.spelled? words with
      | some value =>
        obtain ⟨directive, hdirective, hgives⟩ := exists_ofWords hvalue
        rw [hdirective]
        exact .setting ⟨words, hwords, hvalue⟩ hgives
      | none =>
        obtain ⟨cause, hcause⟩ := exists_ofWords_error hvalue
        rw [hcause]
        refine .rejected hne fun other otherValue hsets => ?_
        obtain ⟨words', hwords', hvalue'⟩ := hsets
        rw [hwords, List.cons.injEq] at hwords'
        obtain ⟨hsame, rfl⟩ := hwords'
        cases Field.keyword_injective hsame
        rw [hvalue] at hvalue'
        cases hvalue'
    · have hunknown : ∀ field : Field, keyword ≠ field.keyword :=
        fun field heq => hkeyword ⟨field, heq⟩
      rw [ofWords_of_ne_keyword hunknown]
      refine .rejected hne fun other otherValue hsets => ?_
      obtain ⟨words', hwords', _⟩ := hsets
      rw [hwords, List.cons.injEq] at hwords'
      exact hunknown other hwords'.1

end Lines

end Directive

end TapeReach
