import TapeReach.State.Basic

/-!
# The order of machine states

States are ordered by program position, then by tape position, then by the
reads left with the unlimited budget first, and last by the ascending lists
of their cells. States of one breadth-first level are numbered in this order.
-/

namespace TapeReach.State

/-- Compare budgets; the unlimited one comes first. -/
def compareReads : Option Nat → Option Nat → Ordering
  | none, none => .eq
  | none, some _ => .lt
  | some _, none => .gt
  | some m, some n => compare m n

/-- Compare lists of cells entry by entry, position before value; a list that runs
out comes first. -/
def compareCells : List (Nat × UInt8) → List (Nat × UInt8) → Ordering
  | [], [] => .eq
  | [], _ :: _ => .lt
  | _ :: _, [] => .gt
  | (p, v) :: rest, (q, w) :: rest' =>
    ((compare p q).then (compare v w)).then (compareCells rest rest')

instance : Ord State where
  compare a b :=
    (compare a.pc b.pc).then <| (compare a.pointer b.pointer).then <|
      (compareReads a.readsLeft b.readsLeft).then (compareCells a.cellList b.cellList)

end TapeReach.State
