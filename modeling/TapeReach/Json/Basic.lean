/-!
# JSON values and their text

A value keeps the fields of an object in the order in which they are given.
The compact text has no blanks; the pretty text has one item a line, indented
by two blanks a level, and empty lists stay on their line.
-/

namespace TapeReach

/-- A JSON value whose numbers are whole and not negative. -/
inductive Json where
  /-- The value `null`. -/
  | null
  /-- A truth value. -/
  | bool (value : Bool)
  /-- A number. -/
  | number (value : Nat)
  /-- A text. -/
  | text (value : String)
  /-- A list of values. -/
  | array (items : List Json)
  /-- Named values in order. -/
  | object (fields : List (String × Json))

namespace Json

/-- A value that may be absent. -/
def optional {α : Type} (encode : α → Json) : Option α → Json
  | some a => encode a
  | none => null

/-- How a character is written inside a quoted text. -/
def escapeChar (c : Char) : List Char :=
  if c = '"' then ['\\', '"']
  else if c = '\\' then ['\\', '\\']
  else if c = '\n' then ['\\', 'n']
  else if c = '\r' then ['\\', 'r']
  else if c = '\t' then ['\\', 't']
  else if c.toNat = 8 then ['\\', 'b']
  else if c.toNat = 12 then ['\\', 'f']
  else if c.toNat < 32 then
    ['\\', 'u', '0', '0', Nat.digitChar (c.toNat / 16), Nat.digitChar (c.toNat % 16)]
  else [c]

/-- A text in quotes. -/
def quote (value : String) : String :=
  "\"" ++ String.ofList (value.toList.flatMap escapeChar) ++ "\""

mutual

/-- The text without blanks. -/
def compact : Json → String
  | null => "null"
  | bool true => "true"
  | bool false => "false"
  | number n => toString n
  | text s => quote s
  | array items => "[" ++ ",".intercalate (compactItems items) ++ "]"
  | object fields => "\x7b" ++ ",".intercalate (compactFields fields) ++ "\x7d"

/-- The texts of list items. -/
def compactItems : List Json → List String
  | [] => []
  | item :: rest => compact item :: compactItems rest

/-- The texts of object fields. -/
def compactFields : List (String × Json) → List String
  | [] => []
  | (name, value) :: rest => (quote name ++ ":" ++ compact value) :: compactFields rest

end

/-- The start of a line at an indentation level. -/
def lineStart (level : Nat) : String := "\n" ++ String.ofList (List.replicate (2 * level) ' ')

/-- Items between brackets, one a line; nothing between them when there are none. -/
def block (left right : String) (level : Nat) : List String → String
  | [] => left ++ right
  | items =>
    left ++ ",".intercalate (items.map (lineStart (level + 1) ++ ·)) ++ lineStart level ++ right

mutual

/-- The text with one item a line, from an indentation level on. -/
def prettyFrom (level : Nat) : Json → String
  | array items => block "[" "]" level (prettyItems (level + 1) items)
  | object fields => block "\x7b" "\x7d" level (prettyFields (level + 1) fields)
  | null => "null"
  | bool true => "true"
  | bool false => "false"
  | number n => toString n
  | text s => quote s

/-- The indented texts of list items. -/
def prettyItems (level : Nat) : List Json → List String
  | [] => []
  | item :: rest => prettyFrom level item :: prettyItems level rest

/-- The indented texts of object fields. -/
def prettyFields (level : Nat) : List (String × Json) → List String
  | [] => []
  | (name, value) :: rest =>
    (quote name ++ ": " ++ prettyFrom level value) :: prettyFields level rest

end

/-- The text with one item a line. -/
def pretty (value : Json) : String := prettyFrom 0 value

end Json

end TapeReach
