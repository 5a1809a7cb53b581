/-!
# Digests of words and memories

A digest is a 64-bit remainder of polynomial division over the two-element
field. It is extended byte by byte with a table of the remainders of all
bytes. A memory has the sum of the digests of its cells, so that a change of
one cell changes the digest of the memory by a difference; a zero cell
contributes nothing, whether it is stored or not.
-/

namespace TapeReach.Digest

/-- The divisor, and the digest that every computation starts with. -/
def seed : UInt64 := 0x911498AE0E66BAD6

/-- Multiply a remainder by the variable of the polynomials. -/
def shift (t : UInt64) : UInt64 :=
  (t >>> 1) ^^^ (if t &&& 1 = 0 then 0 else seed)

/-- The remainder of the `n`-th power of the variable. -/
def power : Nat → UInt64
  | 0 => 0x8000000000000000
  | n + 1 => shift (power n)

/-- The remainder of a byte that leaves the word: the sum of the powers of its bits. -/
def byteRemainder (byte : Nat) : UInt64 :=
  (List.range 8).foldl (fun r k => if byte.testBit k then r ^^^ power (71 - k) else r) 0

/-- The remainders of all bytes. -/
def table : Vector UInt64 256 := Vector.ofFn fun byte => byteRemainder byte.val

/-- Extend a digest by one byte. -/
def extendByte (digest : UInt64) (byte : UInt8) : UInt64 :=
  (digest >>> 8) ^^^ table.get ⟨(byte ^^^ digest.toUInt8).toNat, UInt8.toNat_lt _⟩

/-- Extend a digest by some bytes in order. -/
def extendBytes (digest : UInt64) (bytes : List UInt8) : UInt64 := bytes.foldl extendByte digest

/-- The eight bytes of a word, lowest first. -/
def wordBytes (word : UInt64) : List UInt8 :=
  (List.range 8).map fun k => (word >>> UInt64.ofNat (8 * k)).toUInt8

/-- Extend a digest by a word. -/
def extendWord (digest word : UInt64) : UInt64 := extendBytes digest (wordBytes word)

/-- Extend a digest by a position or count, taken as a word. -/
def extendNat (digest : UInt64) (n : Nat) : UInt64 := extendWord digest (UInt64.ofNat n)

/-- What one cell contributes to the digest of a memory. -/
def cell (position : Nat) (value : UInt8) : UInt64 :=
  if value = 0 then 0 else extendByte (extendNat seed position) value

/-- The digest of a memory: the sum over its cells. -/
def memory (cells : List (Nat × UInt8)) : UInt64 :=
  cells.foldl (fun sum entry => sum + cell entry.1 entry.2) 0

/-- The digest of a memory in which one cell goes from `old` to `new`. -/
def update (digest : UInt64) (position : Nat) (old new : UInt8) : UInt64 :=
  digest - cell position old + cell position new

end TapeReach.Digest
