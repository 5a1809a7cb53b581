import TapeReach.Text.Decimal

/-!
# Reading JSON text

A text is read into a tree that keeps what a typed reader can ask for. A
number is kept only if it is written as a whole number without a sign. A
quoted text may escape half of a surrogate pair, which stands for no
character: such a text is well formed, but it has no value.
-/

namespace TapeReach.Json

/-- What was read from a JSON text. -/
inductive Reading where
  /-- The value `null`. -/
  | null
  /-- A truth value. -/
  | bool (value : Bool)
  /-- A number written with digits only. -/
  | natural (value : Nat)
  /-- Any other number. -/
  | number
  /-- A quoted text, if it has a value. -/
  | text (value : Option String)
  /-- A list. -/
  | array (items : List Reading)
  /-- Named values in order; a name may have no value either. -/
  | object (fields : List (Option String × Reading))

namespace Reading

/-- Drop blanks between tokens. -/
def skipBlanks (cs : List Char) : List Char :=
  cs.dropWhile fun c => c = ' ' || c = '\n' || c = '\t' || c = '\r'

/-- The leading digits of a text, and what follows. -/
def spanDigits (cs : List Char) : List Char × List Char :=
  cs.span fun c => '0' ≤ c && c ≤ '9'

/-- A fraction in front of a text, if there is one: whether there is, and what follows. -/
def fraction? : List Char → Option (Bool × List Char)
  | '.' :: cs =>
    match spanDigits cs with
    | ([], _) => none
    | (_, rest) => some (true, rest)
  | cs => some (false, cs)

/-- An exponent in front of a text, if there is one: whether there is, and what follows. -/
def exponent? : List Char → Option (Bool × List Char)
  | c :: cs =>
    if c = 'e' || c = 'E' then
      let digits := match cs with
        | '+' :: rest | '-' :: rest => rest
        | rest => rest
      match spanDigits digits with
      | ([], _) => none
      | (_, rest) => some (true, rest)
    else some (false, c :: cs)
  | [] => some (false, [])

/-- The whole part of a number, without superfluous zeros. -/
def whole? (cs : List Char) : Option (Nat × List Char) :=
  match spanDigits cs with
  | (['0'], rest) => some (0, rest)
  | ('0' :: _, _) => none
  | (digits, rest) => (Text.digits? digits).map (·, rest)

/-- A number. -/
def number? (cs : List Char) : Option (Reading × List Char) := do
  let (negative, digits) := match cs with
    | '-' :: rest => (true, rest)
    | rest => (false, rest)
  let (n, cs) ← whole? digits
  let (hasFraction, cs) ← fraction? cs
  let (hasExponent, cs) ← exponent? cs
  return (if negative || hasFraction || hasExponent then number else natural n, cs)

/-- The value of a digit in base sixteen. -/
def hexDigit? (c : Char) : Option Nat :=
  if '0' ≤ c && c ≤ '9' then some (c.toNat - 48)
  else if 'a' ≤ c && c ≤ 'f' then some (c.toNat - 87)
  else if 'A' ≤ c && c ≤ 'F' then some (c.toNat - 55)
  else none

/-- A unit of sixteen bits written with four digits. -/
def unit? (a b c d : Char) : Option Nat := do
  let a ← hexDigit? a
  let b ← hexDigit? b
  let c ← hexDigit? c
  let d ← hexDigit? d
  return ((a * 16 + b) * 16 + c) * 16 + d

/-- The character of a one-letter escape. -/
def shortEscape? : Char → Option Char
  | '"' => some '"'
  | '\\' => some '\\'
  | '/' => some '/'
  | 'b' => some (Char.ofNat 8)
  | 'f' => some (Char.ofNat 12)
  | 'n' => some '\n'
  | 'r' => some '\r'
  | 't' => some '\t'
  | _ => none

/-- One item of a quoted text: a character, or a unit of sixteen bits. -/
inductive Item where
  /-- A character that stands for itself or is escaped by a letter. -/
  | char (c : Char)
  /-- A unit that is escaped by its number. -/
  | unit (n : Nat)

/-- The items of a quoted text up to its closing quote, and what follows. -/
def items? : List Char → Option (List Item × List Char)
  | [] => none
  | '"' :: rest => some ([], rest)
  | '\\' :: 'u' :: a :: b :: c :: d :: rest => do
    let unit ← unit? a b c d
    let (items, rest) ← items? rest
    return (.unit unit :: items, rest)
  | '\\' :: c :: rest => do
    let c ← shortEscape? c
    let (items, rest) ← items? rest
    return (.char c :: items, rest)
  | c :: rest =>
    if c = '\\' || c.toNat < 32 then none
    else do
      let (items, rest) ← items? rest
      return (.char c :: items, rest)

/-- The characters of a quoted text. Two units that form a surrogate pair are one
character; half of a pair is none. -/
def itemChars? : List Item → Option (List Char)
  | [] => some []
  | .char c :: rest => (itemChars? rest).map (c :: ·)
  | .unit n :: rest =>
    if 0xD800 ≤ n ∧ n < 0xDC00 then
      match rest with
      | .unit m :: rest =>
        if 0xDC00 ≤ m ∧ m < 0xE000 then
          let c := Char.ofNat (0x10000 + (n - 0xD800) * 0x400 + (m - 0xDC00))
          (itemChars? rest).map (c :: ·)
        else none
      | _ => none
    else if 0xDC00 ≤ n ∧ n < 0xE000 then none
    else (itemChars? rest).map (Char.ofNat n :: ·)

/-- A quoted text behind its opening quote. -/
def quoted? (cs : List Char) : Option (Option String × List Char) :=
  (items? cs).map fun (items, rest) => ((itemChars? items).map String.ofList, rest)

mutual

/-- A value in front of a text. The first argument bounds the depth of the reading. -/
def value? : Nat → List Char → Option (Reading × List Char)
  | 0, _ => none
  | n + 1, cs =>
    match skipBlanks cs with
    | 'n' :: 'u' :: 'l' :: 'l' :: rest => some (null, rest)
    | 't' :: 'r' :: 'u' :: 'e' :: rest => some (bool true, rest)
    | 'f' :: 'a' :: 'l' :: 's' :: 'e' :: rest => some (bool false, rest)
    | '"' :: rest => (quoted? rest).map fun (value, rest) => (text value, rest)
    | '[' :: rest =>
      match skipBlanks rest with
      | ']' :: rest => some (array [], rest)
      | rest => (elements? n rest).map fun (items, rest) => (array items, rest)
    | '\x7b' :: rest =>
      match skipBlanks rest with
      | '\x7d' :: rest => some (object [], rest)
      | rest => (fields? n rest).map fun (fields, rest) => (object fields, rest)
    | rest => number? rest

/-- One or more list items, up to the closing bracket. -/
def elements? : Nat → List Char → Option (List Reading × List Char)
  | 0, _ => none
  | n + 1, cs => do
    let (item, rest) ← value? n cs
    match skipBlanks rest with
    | ',' :: rest =>
      let (items, rest) ← elements? n rest
      return (item :: items, rest)
    | ']' :: rest => return ([item], rest)
    | _ => none

/-- One or more object fields, up to the closing brace. -/
def fields? : Nat → List Char → Option (List (Option String × Reading) × List Char)
  | 0, _ => none
  | n + 1, cs =>
    match skipBlanks cs with
    | '"' :: rest => do
      let (name, rest) ← quoted? rest
      match skipBlanks rest with
      | ':' :: rest =>
        let (value, rest) ← value? n rest
        match skipBlanks rest with
        | ',' :: rest =>
          let (fields, rest) ← fields? n rest
          return ((name, value) :: fields, rest)
        | '\x7d' :: rest => return ([(name, value)], rest)
        | _ => none
      | _ => none
    | _ => none

end

/-- Read a text that holds one value and blanks. -/
def parse? (source : String) : Option Reading :=
  let cs := source.toList
  match value? (2 * cs.length + 1) cs with
  | some (value, rest) => if (skipBlanks rest).isEmpty then some value else none
  | none => none

end Reading

end TapeReach.Json
