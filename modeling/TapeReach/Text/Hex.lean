/-!
# Hexadecimal text

Words are written with all their sixteen digits, bytes with two; letters are
lower case.
-/

namespace TapeReach.Text

/-- Digits in base sixteen, filled up with zeros to a width. -/
def hexPadded (width n : Nat) : String :=
  let digits := Nat.toDigits 16 n
  String.ofList (List.replicate (width - digits.length) '0' ++ digits)

/-- The sixteen digits of a word. -/
def hexWord (word : UInt64) : String := hexPadded 16 word.toNat

/-- The two digits of a byte. -/
def hexByte (byte : UInt8) : String := hexPadded 2 byte.toNat

end TapeReach.Text
