import TapeReach.Settings.Basic
import TapeReach.Text.Blank
import TapeReach.Text.Decimal
import TapeReach.Text.Upper

/-!
# Directive files

A directive file holds one directive a line. A backslash and a star start a
comment that runs to the end of the line, and a parenthesis and a star one
that ends at a star and a parenthesis on the same line. Every line that is
not understood is reported, with its number; a file without such lines gives
settings in which later directives count.
-/

namespace TapeReach

/-- A directive with its value. -/
inductive Directive where
  /-- The label to check. -/
  | label (name : String)
  /-- Number of reads that may find a byte. -/
  | maxReads (count : Nat)
  /-- The byte found by a read of exhausted input. -/
  | eofByte (byte : UInt8)
  /-- Whether a read of exhausted input leaves the cell alone. -/
  | noChangeOnEof (value : Bool)
  /-- Number of states that may be visited. -/
  | maxStates (count : Nat)
  /-- Time limit in seconds. -/
  | timeLimit (seconds : Nat)
  /-- Expansions between two notes on progress. -/
  | progressInterval (count : Nat)
  /-- Number of workers. -/
  | workers (count : Nat)
  deriving DecidableEq

/-- Why a line is no directive. -/
inductive DirectiveError where
  /-- The label directive needs one name. -/
  | labelName
  /-- This directive needs one value. -/
  | singleValue (directive : String)
  /-- This directive does not take that value. -/
  | invalidValue (directive value : String)
  /-- This is no truth value. -/
  | notBoolean (value : String)
  /-- A truth value was given more than once. -/
  | tooManyValues
  /-- There are no workers. -/
  | noWorkers
  /-- There is no such directive. -/
  | unknown (directive : String)
  deriving DecidableEq

/-- The reason in words. -/
def DirectiveError.message : DirectiveError → String
  | labelName => "LABEL requires exactly one label name"
  | singleValue directive => s!"{directive} requires exactly one value"
  | invalidValue directive value => s!"{directive} has an invalid value '{value}'"
  | notBoolean value => s!"NO_CHANGE_ON_EOF expects TRUE or FALSE, got '{value}'"
  | tooManyValues => "NO_CHANGE_ON_EOF takes at most one value"
  | noWorkers => "WORKERS must be at least 1"
  | unknown directive => s!"unknown directive '{directive}'"

/-- A line that is no directive. -/
structure LineError where
  /-- Number of the line, from one on. -/
  line : Nat
  /-- What is wrong with it. -/
  cause : DirectiveError
  deriving DecidableEq

/-- All lines that are no directives, in words. -/
def LineError.summary (errors : List LineError) : String :=
  "invalid configuration: " ++
    "; ".intercalate (errors.map fun e => s!"line {e.line}: " ++ e.cause.message)

namespace Directive

/-- Set what the directive names. -/
def apply (settings : Settings) : Directive → Settings
  | label name => { settings with label := some name }
  | maxReads count => { settings with io.maxReads := some count }
  | eofByte byte => { settings with io.eofByte := byte }
  | noChangeOnEof value => { settings with io.noChangeOnEof := value }
  | maxStates count => { settings with maxStates := some count }
  | timeLimit seconds => { settings with timeLimit := some (.ofSeconds seconds) }
  | progressInterval count => { settings with progressInterval := count }
  | workers count => { settings with graphWorkers := some count }

/-- The one value of a directive, a number below a bound. -/
def number (bound : Nat) (directive : String) : List String → Except DirectiveError Nat
  | [value] =>
    match Text.natural? bound value with
    | some n => .ok n
    | none => .error (.invalidValue directive value)
  | _ => .error (.singleValue directive)

/-- The truth value that a word stands for, in whatever case it is written. -/
def truth? (value : String) : Option Bool :=
  let word := Text.upper value
  if ["TRUE", "ON", "YES"].contains word then some true
  else if ["FALSE", "OFF", "NO"].contains word then some false
  else none

/-- The directive that the words of a line stand for. -/
def ofWords (directive : String) (values : List String) : Except DirectiveError Directive :=
  match directive with
  | "LABEL" =>
    match values with
    | [name] => .ok (label name)
    | _ => .error .labelName
  | "MAX_READS" => (number Text.wordBound directive values).map maxReads
  | "EOF_BYTE" => (number Text.byteBound directive values).map fun n => eofByte (UInt8.ofNat n)
  | "NO_CHANGE_ON_EOF" =>
    match values with
    | [] => .ok (noChangeOnEof true)
    | [value] =>
      match truth? value with
      | some b => .ok (noChangeOnEof b)
      | none => .error (.notBoolean value)
    | _ => .error .tooManyValues
  | "MAX_STATES" => (number Text.wordBound directive values).map maxStates
  | "TIME_LIMIT" => (number Text.wordBound directive values).map timeLimit
  | "PROGRESS_INTERVAL" => (number Text.wordBound directive values).map progressInterval
  | "WORKERS" =>
    match number Text.wordBound directive values with
    | .ok 0 => .error .noWorkers
    | .ok n => .ok (workers n)
    | .error e => .error e
  | _ => .error (.unknown directive)

/-- The text before and behind the first occurrence of two characters in a row. -/
def splitAtPair (a b : Char) : List Char → Option (List Char × List Char)
  | c :: d :: rest =>
    if c = a ∧ d = b then some ([], rest)
    else (splitAtPair a b (d :: rest)).map fun (before, behind) => (c :: before, behind)
  | _ => none

/-- What stands behind a pair of characters is shorter than the whole text. -/
theorem length_of_splitAtPair {a b : Char} {text before behind : List Char}
    (h : splitAtPair a b text = some (before, behind)) : behind.length < text.length := by
  induction text generalizing before behind with
  | nil => simp [splitAtPair] at h
  | cons c tail ih =>
    cases tail with
    | nil => simp [splitAtPair] at h
    | cons d rest =>
      unfold splitAtPair at h
      split at h
      · cases h
        simp only [List.length_cons]
        omega
      · simp only [Option.map_eq_some_iff, Prod.exists, Prod.mk.injEq] at h
        obtain ⟨_, behind', hsplit, _, rfl⟩ := h
        have := ih hsplit
        simp only [List.length_cons] at this ⊢
        omega

/-- A line without its line comment. -/
def cutLineComment (line : List Char) : List Char :=
  match splitAtPair '\\' '*' line with
  | some (before, _) => before
  | none => line

/-- A line without its block comments. One that is not closed runs to the end. -/
def stripBlockComments (line : List Char) : List Char :=
  match h : splitAtPair '(' '*' line with
  | none => line
  | some (before, inside) =>
    match h' : splitAtPair '*' ')' inside with
    | none => before
    | some (_, behind) =>
      have := Nat.lt_trans (length_of_splitAtPair h') (length_of_splitAtPair h)
      before ++ stripBlockComments behind
termination_by line.length

/-- The directive on a line, if the line is not blank. -/
def ofLine (line : List Char) : Except DirectiveError (Option Directive) :=
  match Text.words (stripBlockComments (cutLineComment line)) with
  | [] => .ok none
  | directive :: values => (ofWords directive values).map some

end Directive

namespace Settings

/-- Apply one numbered line to the settings and the errors so far. -/
def readLine (state : Settings × List LineError) (line : List Char × Nat) :
    Settings × List LineError :=
  match Directive.ofLine line.1 with
  | .ok none => state
  | .ok (some directive) => (directive.apply state.1, state.2)
  | .error cause => (state.1, state.2 ++ [⟨line.2, cause⟩])

/-- Settings from the lines of a directive file. -/
def ofLines (lines : List (List Char)) : Except (List LineError) Settings :=
  match (lines.zipIdx 1).foldl readLine ({}, []) with
  | (settings, []) => .ok settings
  | (_, errors) => .error errors

/-- Settings from the text of a directive file. -/
def parse (text : String) : Except (List LineError) Settings := ofLines (Text.lines text.toList)

end Settings

end TapeReach
