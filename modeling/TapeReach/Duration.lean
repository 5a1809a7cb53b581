/-!
# Durations

A duration is a whole number of nanoseconds. Its text uses the largest of
the units `s`, `ms`, `µs` and `ns` of which there is at least one, with as
many decimals as it takes to be exact.
-/

namespace TapeReach

/-- A span of time. -/
structure Duration where
  /-- Its length in nanoseconds. -/
  nanoseconds : Nat
  deriving DecidableEq

namespace Duration

/-- Nanoseconds of a second. -/
def perSecond : Nat := 1000000000

/-- A whole number of seconds. -/
def ofSeconds (n : Nat) : Duration := ⟨n * perSecond⟩

/-- A whole number of milliseconds. -/
def ofMilliseconds (n : Nat) : Duration := ⟨n * 1000000⟩

/-- Whole seconds. -/
def seconds (d : Duration) : Nat := d.nanoseconds / perSecond

/-- Nanoseconds beyond the whole seconds. -/
def subsecond (d : Duration) : Nat := d.nanoseconds % perSecond

/-- Whole milliseconds. -/
def milliseconds (d : Duration) : Nat := d.nanoseconds / 1000000

/-- Seconds and nanoseconds together; nanoseconds carry over into seconds, which must
fit into a word. -/
def ofParts? (seconds nanoseconds : Nat) : Option Duration :=
  if seconds + nanoseconds / perSecond < Nat.pow 2 64 then
    some ⟨seconds * perSecond + nanoseconds⟩
  else none

/-- The decimals of `part` out of `10 ^ places`, without trailing zeros. -/
def decimals (part places : Nat) : String :=
  let digits := Nat.toDigits 10 part
  let padded := List.replicate (places - digits.length) '0' ++ digits
  match (padded.reverse.dropWhile (· = '0')).reverse with
  | [] => ""
  | kept => "." ++ String.ofList kept

/-- The amount in units of `10 ^ places` nanoseconds, and the name of the unit. -/
def inUnit (d : Duration) (places : Nat) (unit : String) : String :=
  let size := Nat.pow 10 places
  toString (d.nanoseconds / size) ++ decimals (d.nanoseconds % size) places ++ unit

/-- The duration in its largest unit. -/
def text (d : Duration) : String :=
  if Nat.pow 10 9 ≤ d.nanoseconds then d.inUnit 9 "s"
  else if Nat.pow 10 6 ≤ d.nanoseconds then d.inUnit 6 "ms"
  else if Nat.pow 10 3 ≤ d.nanoseconds then d.inUnit 3 "µs"
  else d.inUnit 0 "ns"

end Duration

end TapeReach
