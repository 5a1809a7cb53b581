import TapeReach.Program.Basic

/-!
# Reading program text

A text is read from left to right, one character at a time. An underscore
opens a label that runs to the next underscore and names the position of the
next instruction. Outside labels the eight symbols are instructions and all
else is a comment. A closing bracket is matched with the innermost open one,
and both get their jump target at that moment.

The first fault ends the reading; brackets that stay open are found last.
Offsets count bytes of the UTF-8 form of the text.
-/

namespace TapeReach

/-- Why a text is no program, with the byte offset of the fault. -/
inductive SyntaxError where
  /-- A closing bracket has no open partner. -/
  | unmatchedClose (offset : Nat)
  /-- The innermost bracket that is open at the end of the text. -/
  | unclosedOpen (offset : Nat)
  /-- The label opened here runs into the end of the text. -/
  | unclosedLabel (offset : Nat)
  /-- The label opened here has no name. -/
  | emptyLabel (offset : Nat)
  deriving DecidableEq

namespace SyntaxError

/-- Byte offset of the fault. -/
def offset : SyntaxError → Nat
  | unmatchedClose n | unclosedOpen n | unclosedLabel n | emptyLabel n => n

/-- The fault in words. -/
def message : SyntaxError → String
  | unmatchedClose n => s!"jump instructions are not balanced: unmatched ']' at byte {n}"
  | unclosedOpen n => s!"jump instructions are not balanced: unclosed '[' at byte {n}"
  | unclosedLabel n => s!"label opened at byte {n} is never closed"
  | emptyLabel n => s!"empty label at byte {n}"

end SyntaxError

/-- The character on both sides of a label name. -/
def labelMark : Char := '_'

/-- What has been read of a program text. -/
structure Scanner where
  /-- Bytes read so far. -/
  offset : Nat := 0
  /-- Instructions read so far. -/
  instructions : Array Instruction := #[]
  /-- Jump targets of the brackets matched so far. -/
  jumps : Std.ExtTreeMap Nat Nat := ∅
  /-- Labels closed so far. -/
  labels : Std.ExtTreeMap Nat (List String) := ∅
  /-- Position and byte offset of each open bracket, innermost first. -/
  openBrackets : List (Nat × Nat) := []
  /-- Byte offset and reversed name of the label being read. -/
  openLabel : Option (Nat × List Char) := none

namespace Scanner

/-- Attach a name to the position of the next instruction. -/
def attach (s : Scanner) (name : String) : Scanner :=
  let pc := s.instructions.size
  { s with labels := s.labels.insert pc ((s.labels[pc]?).getD [] ++ [name]) }

/-- Append an instruction. -/
def push (s : Scanner) (i : Instruction) : Scanner :=
  { s with instructions := s.instructions.push i }

/-- Remember the bracket that opens at the next position. -/
def openBracket (s : Scanner) : Scanner :=
  { s with openBrackets := (s.instructions.size, s.offset) :: s.openBrackets }

/-- Match the bracket that closes at the next position with the innermost open one. -/
def closeBracket (s : Scanner) : Except SyntaxError Scanner :=
  let pc := s.instructions.size
  match s.openBrackets with
  | [] => .error (.unmatchedClose s.offset)
  | (start, _) :: outer =>
    .ok { s with
      jumps := (s.jumps.insert start (pc + 1)).insert pc (start + 1)
      openBrackets := outer }

/-- Append an instruction, matching it if it is a closing bracket. -/
def append (s : Scanner) (i : Instruction) : Except SyntaxError Scanner :=
  match i with
  | .jumpIfZero => .ok (s.openBracket.push i)
  | .jumpIfNonZero => s.closeBracket.map (·.push i)
  | _ => .ok (s.push i)

/-- What one character means, before the offset moves on. -/
def accept (s : Scanner) (c : Char) : Except SyntaxError Scanner :=
  match s.openLabel with
  | some (start, name) =>
    if c = labelMark then
      if name.isEmpty then .error (.emptyLabel start)
      else .ok { s.attach (String.ofList name.reverse) with openLabel := none }
    else .ok { s with openLabel := some (start, c :: name) }
  | none =>
    if c = labelMark then .ok { s with openLabel := some (s.offset, []) }
    else
      match Instruction.ofSymbol? c with
      | some i => s.append i
      | none => .ok s

/-- Read one character. -/
def step (s : Scanner) (c : Char) : Except SyntaxError Scanner :=
  let offset := s.offset + c.utf8Size
  (s.accept c).map fun read => { read with offset := offset }

/-- The program, once the text has ended. -/
def finish (s : Scanner) : Except SyntaxError Program :=
  match s.openLabel, s.openBrackets with
  | some (start, _), _ => .error (.unclosedLabel start)
  | none, (_, offset) :: _ => .error (.unclosedOpen offset)
  | none, [] => .ok ⟨s.instructions, s.jumps, s.labels⟩

end Scanner

namespace Program

/-- Read a program from the characters of its text. -/
def ofChars (text : List Char) : Except SyntaxError Program :=
  text.foldlM Scanner.step {} >>= Scanner.finish

/-- Read a program from its text. -/
def parse (text : String) : Except SyntaxError Program := ofChars text.toList

end Program

end TapeReach
