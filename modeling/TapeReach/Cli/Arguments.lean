/-!
# Command line arguments

An argument is an option with two dashes, which may carry its value behind an
equals sign, a group of one-letter options behind one dash, or a plain word; a
single dash is a word. Two dashes alone turn all further arguments into words.
An option that needs a value takes it from the equals sign or from the next
argument, which then has to be a word. No option may be repeated, apart from
the one for more messages. Arguments are judged from left to right, so a value
that is not accepted counts before a later request for help.
-/

namespace TapeReach.Cli

/-- Why no command is carried out. -/
inductive Notice where
  /-- The arguments make no sense. -/
  | misuse
  /-- Help was asked for. -/
  | help
  /-- The version was asked for. -/
  | version
  deriving DecidableEq

/-- The form of an argument. -/
inductive Token where
  /-- Two dashes alone. -/
  | terminator
  /-- An option by name, perhaps with a value. -/
  | long (name : String) (value : Option String)
  /-- Options by letter. -/
  | short (letters : List Char)
  /-- Anything else. -/
  | word (text : String)
  deriving DecidableEq

/-- The form of an argument. -/
def Token.ofArgument (argument : String) : Token :=
  match argument.toList with
  | ['-', '-'] => .terminator
  | '-' :: '-' :: rest =>
    let name := String.ofList (rest.takeWhile (· ≠ '='))
    match rest.dropWhile (· ≠ '=') with
    | _ :: value => .long name (some (String.ofList value))
    | [] => .long name none
  | '-' :: letter :: rest => .short (letter :: rest)
  | _ => .word argument

/-- The options and the words that a command knows. -/
structure Grammar where
  /-- Options without a value. -/
  flags : List String
  /-- Options with a value, and the values that each accepts. -/
  valued : List (String × (String → Bool))
  /-- The words that are accepted in each place. -/
  words : List (String → Bool)

/-- What the arguments of a command say. -/
structure Arguments where
  /-- The options without a value that were given. -/
  flags : List String := []
  /-- The options with a value that were given, and their values. -/
  values : List (String × String) := []
  /-- The words in order. -/
  words : List String := []
  deriving DecidableEq

namespace Arguments

/-- Whether an option without a value was given. -/
def has (a : Arguments) (flag : String) : Bool := a.flags.contains flag

/-- The value of an option. -/
def value? (a : Arguments) (name : String) : Option String := a.values.lookup name

/-- Add an option without a value. -/
def addFlag (grammar : Grammar) (a : Arguments) (name : String) : Except Notice Arguments :=
  if name = "verbose" then .ok a
  else if name = "help" then .error .help
  else if grammar.flags.contains name && !a.has name then
    .ok { a with flags := a.flags ++ [name] }
  else .error .misuse

/-- Add an option with its value. -/
def addValue (grammar : Grammar) (a : Arguments) (name value : String) :
    Except Notice Arguments :=
  match grammar.valued.lookup name with
  | some accepts =>
    if accepts value && (a.value? name).isNone then
      .ok { a with values := a.values ++ [(name, value)] }
    else .error .misuse
  | none => .error .misuse

/-- Add options by their letters. -/
def addLetters (a : Arguments) : List Char → Except Notice Arguments
  | [] => .ok a
  | 'v' :: rest => a.addLetters rest
  | 'h' :: _ => .error .help
  | _ => .error .misuse

/-- Add a word. -/
def addWord (grammar : Grammar) (a : Arguments) (word : String) : Except Notice Arguments :=
  match grammar.words[a.words.length]? with
  | some accepts =>
    if accepts word then .ok { a with words := a.words ++ [word] } else .error .misuse
  | none => .error .misuse

/-- Add arguments from left to right. -/
def addAll (grammar : Grammar) : Arguments → List String → Except Notice Arguments
  | a, [] => .ok a
  | a, argument :: rest =>
    match Token.ofArgument argument with
    | .terminator => rest.foldlM (addWord grammar) a
    | .word text => do addAll grammar (← a.addWord grammar text) rest
    | .short letters => do addAll grammar (← a.addLetters letters) rest
    | .long name (some value) => do addAll grammar (← a.addValue grammar name value) rest
    | .long name none =>
      if (grammar.valued.lookup name).isSome then
        match rest with
        | next :: rest =>
          match Token.ofArgument next with
          | .word value => do addAll grammar (← a.addValue grammar name value) rest
          | _ => .error .misuse
        | [] => .error .misuse
      else do addAll grammar (← a.addFlag grammar name) rest

/-- What the value of an option stands for, if the option was given. -/
def read? {α : Type} (a : Arguments) (name : String) (parse? : String → Option α) : Option α :=
  (a.value? name).bind parse?

end Arguments

end TapeReach.Cli
