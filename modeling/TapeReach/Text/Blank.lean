/-!
# Lines, blanks and words

White space is the Unicode property of that name, which has 25 characters.
A line ends at a line feed, and a carriage return right before the line feed
belongs to the line end. Words are the longest runs without white space.
-/

namespace TapeReach.Text

/-- The code points with the property `White_Space`, as inclusive ranges. -/
def blankRanges : List (Nat × Nat) :=
  [(0x09, 0x0D), (0x20, 0x20), (0x85, 0x85), (0xA0, 0xA0), (0x1680, 0x1680), (0x2000, 0x200A),
    (0x2028, 0x2029), (0x202F, 0x202F), (0x205F, 0x205F), (0x3000, 0x3000)]

/-- Whether a character is white space. -/
def isBlank (c : Char) : Bool :=
  blankRanges.any fun range => range.1 ≤ c.toNat && c.toNat ≤ range.2

/-- The word gathered so far, if there is one; characters are given last first. -/
def gathered : List Char → List String
  | [] => []
  | current => [String.ofList current.reverse]

/-- The words of a text when the characters of `current`, last first, precede it. -/
def wordsFrom : (current text : List Char) → List String
  | current, [] => gathered current
  | current, c :: rest =>
    if isBlank c then gathered current ++ wordsFrom [] rest else wordsFrom (c :: current) rest

/-- The words of a text. -/
def words (text : List Char) : List String := wordsFrom [] text

/-- A line given last character first, without a carriage return at its end. -/
def closeLine : List Char → List Char
  | '\r' :: rest => rest.reverse
  | current => current.reverse

/-- The lines of a text when the characters of `current`, last first, precede it. -/
def linesFrom : (current text : List Char) → List (List Char)
  | [], [] => []
  | current, [] => [current.reverse]
  | current, c :: rest =>
    if c = '\n' then closeLine current :: linesFrom [] rest else linesFrom (c :: current) rest

/-- The lines of a text; a line feed at the very end starts no further line. -/
def lines (text : List Char) : List (List Char) := linesFrom [] text

end TapeReach.Text
