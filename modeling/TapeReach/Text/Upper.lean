/-!
# Upper case

Full upper-casing as far as it leads to ASCII letters: besides the 26 small
letters, ten characters have an upper-case form of ASCII letters, some of
them of two or three letters. Every other character stands for itself; its
upper-case form is outside ASCII, so comparing with an ASCII word is exact.
-/

namespace TapeReach.Text

/-- The characters outside ASCII whose upper-case form is ASCII. -/
def asciiUppercases : List (Char × String) :=
  [('ß', "SS"), ('ı', "I"), ('ſ', "S"), ('ﬀ', "FF"), ('ﬁ', "FI"), ('ﬂ', "FL"), ('ﬃ', "FFI"),
    ('ﬄ', "FFL"), ('ﬅ', "ST"), ('ﬆ', "ST")]

/-- The upper-case form of a character, if that is ASCII. -/
def upperChar (c : Char) : List Char :=
  match asciiUppercases.lookup c with
  | some letters => letters.toList
  | none => [c.toUpper]

/-- The upper-case form of a text, as far as it is ASCII. -/
def upper (text : String) : String := String.ofList (text.toList.flatMap upperChar)

end TapeReach.Text
