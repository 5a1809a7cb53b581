import TapeReach.Cli.Arguments
import TapeReach.Execution.Tape
import TapeReach.Settings.Basic
import TapeReach.Text.Decimal

/-!
# Commands

The command line names one of four commands, with options that hold for all
of them in front of the name or behind it. Numbers have to fit into a word
and paths must not be empty.
-/

namespace TapeReach.Cli

/-- Options on how reads behave; those that are absent leave a setting as it is. -/
structure InputOptions where
  /-- Number of bytes that can be read. -/
  maxReads : Option Nat
  /-- The byte found by a read of exhausted input. -/
  eofByte : Option UInt8
  /-- A read of exhausted input leaves the cell alone. -/
  noChangeOnEof : Bool
  /-- A read of exhausted input stores the byte. -/
  changeOnEof : Bool
  deriving DecidableEq

/-- The input model with the options on top of it. -/
def InputOptions.apply (options : InputOptions) (io : InputModel) : InputModel where
  maxReads := options.maxReads <|> io.maxReads
  eofByte := options.eofByte.getD io.eofByte
  noChangeOnEof := !options.changeOnEof && (options.noChangeOnEof || io.noChangeOnEof)

/-- How to run a program. -/
structure ExecuteOptions where
  /-- Path of the program. -/
  file : String
  /-- How reads behave. -/
  io : InputOptions
  /-- The shape of the tape. -/
  memory : MemoryModel
  /-- Number of instructions that may be executed. -/
  stepLimit : Option Nat
  deriving DecidableEq

/-- How to print a program. -/
structure PrintOptions where
  /-- Path of the program. -/
  file : String
  /-- Leave out the labels. -/
  noLabels : Bool
  deriving DecidableEq

/-- How to draw a state graph. -/
structure DotOptions where
  /-- Path of the program. -/
  file : String
  /-- How reads behave. -/
  io : InputOptions
  /-- Number of nodes. -/
  maxStates : Option Nat
  /-- Number of workers. -/
  workers : Option Nat
  /-- Path of a directive file. -/
  config : Option String
  deriving DecidableEq

/-- How to check a label. -/
structure CheckOptions where
  /-- Path of the program. -/
  file : String
  /-- The label. -/
  label : Option String
  /-- How reads behave. -/
  io : InputOptions
  /-- Number of states that may be visited. -/
  maxStates : Option Nat
  /-- Time limit in seconds. -/
  timeLimit : Option Nat
  /-- Path of a directive file. -/
  config : Option String
  /-- Answer in JSON. -/
  json : Bool
  deriving DecidableEq

/-- One of the four commands. -/
inductive Command where
  /-- Run a program. -/
  | execute (options : ExecuteOptions)
  /-- Print a program without comments. -/
  | print (options : PrintOptions)
  /-- Draw the state graph of a program. -/
  | dot (options : DotOptions)
  /-- Check that every run reaches a label. -/
  | checkReach (options : CheckOptions)
  deriving DecidableEq

/-- A number that fits into a word. -/
def word? : String → Option Nat := Text.natural? Text.wordBound

/-- A path, which must not be empty. -/
def path? (text : String) : Option String := if text.isEmpty then none else some text

/-- A cell width, spelled without leading zeros. -/
def cellWidth? : String → Option CellWidth
  | "8" => some .bits8
  | "16" => some .bits16
  | "32" => some .bits32
  | _ => none

/-- The byte found by a read of exhausted input. -/
def eofByte? (text : String) : Option UInt8 :=
  (Text.signed? Text.byteBound text).map UInt8.ofNat

/-- The name of a command. -/
inductive CommandName where
  /-- Run a program. -/
  | execute
  /-- Print a program. -/
  | print
  /-- Draw a state graph. -/
  | dot
  /-- Check a label. -/
  | checkReach
  deriving DecidableEq

namespace CommandName

/-- The command that a word names. -/
def ofWord? : String → Option CommandName
  | "execute" => some execute
  | "print" => some print
  | "dot" => some dot
  | "check-reach" => some checkReach
  | _ => none

/-- Options without a value on how reads behave. -/
def inputFlags : List String := ["no-change-on-eof", "change-on-eof"]

/-- Options with a number as their value. -/
def numbered (names : List String) : List (String × (String → Bool)) :=
  names.map fun name => (name, fun text => (word? text).isSome)

/-- Options with a value on how reads behave. -/
def inputValues : List (String × (String → Bool)) :=
  ("eof-byte", fun text => (eofByte? text).isSome) :: numbered ["max-reads"]

/-- The option for a directive file. -/
def configValue : String × (String → Bool) := ("config", fun text => (path? text).isSome)

/-- The word that names the program. -/
def fileWord : String → Bool := fun text => (path? text).isSome

/-- What the command knows. -/
def grammar : CommandName → Grammar
  | execute =>
    { flags := ["no-color", "no-wrap"] ++ inputFlags
      valued := ("cell-size", fun text => (cellWidth? text).isSome) ::
        numbered ["tape-len", "step-limit"] ++ inputValues
      words := [fileWord] }
  | print => { flags := ["no-color", "no-labels"], valued := [], words := [fileWord] }
  | dot =>
    { flags := ["no-color"] ++ inputFlags
      valued := configValue :: numbered ["max-states", "workers"] ++ inputValues
      words := [fileWord] }
  | checkReach =>
    { flags := ["no-color", "json"] ++ inputFlags
      valued := configValue :: numbered ["max-states", "time-limit"] ++ inputValues
      words := [fileWord, fun _ => true] }

end CommandName

namespace Arguments

/-- The options on how reads behave, of which two contradict each other. -/
def inputOptions (a : Arguments) : Except Notice InputOptions := do
  if a.has "no-change-on-eof" && a.has "change-on-eof" then throw .misuse
  return {
    maxReads := a.read? "max-reads" word?
    eofByte := a.read? "eof-byte" eofByte?
    noChangeOnEof := a.has "no-change-on-eof"
    changeOnEof := a.has "change-on-eof" }

/-- The path of the program and a further word. -/
def fileAndWord (a : Arguments) : Except Notice (String × Option String) :=
  match a.words with
  | [] => .error .misuse
  | file :: rest => .ok (file, rest.head?)

/-- The command with these arguments, which its grammar has accepted. -/
def toCommand (a : Arguments) (name : CommandName) : Except Notice Command := do
  let (file, label) ← a.fileAndWord
  match name with
  | .execute =>
    let width := a.read? "cell-size" cellWidth?
    let length := a.read? "tape-len" word?
    let memory := MemoryModel.ofLength (width.getD .bits8) (length.getD defaultTapeLength)
      (!a.has "no-wrap")
    return .execute ⟨file, ← a.inputOptions, memory, a.read? "step-limit" word?⟩
  | .print => return .print ⟨file, a.has "no-labels"⟩
  | .dot =>
    return .dot ⟨file, ← a.inputOptions, a.read? "max-states" word?, a.read? "workers" word?,
      a.read? "config" path?⟩
  | .checkReach =>
    return .checkReach ⟨file, label, ← a.inputOptions, a.read? "max-states" word?,
      a.read? "time-limit" word?, a.read? "config" path?, a.has "json"⟩

end Arguments

/-- A command and the options that hold for every command. -/
structure Invocation where
  /-- Colours are not wanted. -/
  noColour : Bool
  /-- The command. -/
  command : Command
  deriving DecidableEq

namespace Invocation

/-- What a request for help with further words gives: it may name one command or itself. -/
def helpOn : List String → Notice
  | [] | ["help"] => .help
  | [name] => if (CommandName.ofWord? name).isSome then .help else .misuse
  | _ => .misuse

/-- Options by letter in front of the command. -/
def letters : List Char → Except Notice Unit
  | [] => .ok ()
  | 'v' :: rest => letters rest
  | 'V' :: _ => .error .version
  | 'h' :: _ => .error .help
  | _ => .error .misuse

/-- Read arguments from the one on that may be the command. -/
def parseFrom (noColour : Bool) : List String → Except Notice Invocation
  | [] => .error .misuse
  | argument :: rest =>
    match Token.ofArgument argument with
    | .short group => do
      letters group
      parseFrom noColour rest
    | .long "verbose" none => parseFrom noColour rest
    | .long "no-color" none => if noColour then .error .misuse else parseFrom true rest
    | .long "version" none => .error .version
    | .long "help" none => .error .help
    | .word "help" => .error (helpOn rest)
    | .word text =>
      match CommandName.ofWord? text with
      | some name => do
        let arguments ← Arguments.addAll name.grammar {} rest
        return ⟨noColour || arguments.has "no-color", ← arguments.toCommand name⟩
      | none => .error .misuse
    | .terminator | .long _ _ => .error .misuse

/-- Read the arguments of the program. -/
def parse (arguments : List String) : Except Notice Invocation := parseFrom false arguments

/-- The files that a command reads. -/
def paths (invocation : Invocation) : List String :=
  match invocation.command with
  | .execute options => [options.file]
  | .print options => [options.file]
  | .dot options => options.file :: options.config.toList
  | .checkReach options => options.file :: options.config.toList

end Invocation

end TapeReach.Cli
