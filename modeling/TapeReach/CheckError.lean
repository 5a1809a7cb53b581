/-!
# Programs that cannot be checked

A check needs a label that occurs in the program, and a jump target for each
bracket. It breaks off when it is asked for the word behind the greatest one.
-/

namespace TapeReach

/-- Why a program cannot be checked. -/
inductive CheckError where
  /-- The bracket at this position has no jump target. -/
  | malformedJumpTable (pc : Nat)
  /-- No position carries the name. -/
  | unknownLabel (name : String)
  /-- There is no word behind the greatest one. -/
  | overflow
  deriving DecidableEq

/-- The reason in words. -/
def CheckError.message : CheckError → String
  | malformedJumpTable pc => s!"malformed jump table: no target for bracket at pc {pc}"
  | unknownLabel name => s!"label \"{name}\" does not exist in the program"
  | overflow => "attempt to add with overflow"

end TapeReach
