import TapeReach.CheckError
import TapeReach.Program.Basic

/-!
# Next positions

The positions of a program and of a tape are words of 64 bits. The greatest
word has no next one, and what asks for it fails. A program has fewer
instructions than there are words, so among the positions of a program only
those far behind its end, where a jump can lead, may have no next one.
-/

namespace TapeReach

/-- The word behind a word. -/
def nextWord (word : Nat) : Except CheckError Nat :=
  if word + 1 < UInt64.size then .ok (word + 1) else .error .overflow

/-- The position behind another. Up to the end of the program there is always one. -/
def Program.nextPosition (program : Program) (pc : Nat) : Except CheckError Nat :=
  if pc ≤ program.size then .ok (pc + 1) else nextWord pc

end TapeReach
