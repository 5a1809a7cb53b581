import TapeReach.Proofs.State.Canonical
import TapeReach.State.Order

/-!
# Laws of the order of states

Budgets and lists of cells are compared as the library compares them, so the
order of states is a lexicographic one and has its laws. It tells canonical
states apart: they are equal in the order only if they are the same.
-/

namespace TapeReach.State

/-- Cells are compared by position and then by value. -/
def compareCell : Nat × UInt8 → Nat × UInt8 → Ordering :=
  compareLex (compareOn Prod.fst) (compareOn Prod.snd)

instance : Std.TransCmp compareCell :=
  inferInstanceAs (Std.TransCmp (compareLex (compareOn Prod.fst) (compareOn Prod.snd)))

instance : Std.LawfulEqCmp compareCell where
  compare_self := by simp [compareCell, compareLex, compareOn]
  eq_of_compare := by
    intro a b h
    simp only [compareCell, compareLex, compareOn, Ordering.then_eq_eq,
      Std.LawfulEqOrd.compare_eq_iff_eq] at h
    exact Prod.ext h.1 h.2

/-- Budgets are compared as optional numbers. -/
theorem compareReads_eq (a b : Option Nat) : compareReads a b = compare a b := by
  cases a <;> cases b <;> rfl

/-- Lists of cells are compared lexicographically. -/
theorem compareCells_eq (a b : List (Nat × UInt8)) :
    compareCells a b = List.compareLex compareCell a b := by
  induction a generalizing b with
  | nil => cases b <;> rfl
  | cons x a ih =>
    cases b with
    | nil => rfl
    | cons y b =>
      rw [compareCells, List.compareLex_cons_cons, ih]
      rfl

/-- States are compared by four things in turn. -/
theorem compare_eq_compareLex (s t : State) :
    compare s t = compareLex (compareOn pc) (compareLex (compareOn pointer)
      (compareLex (compareOn readsLeft)
        fun a b => List.compareLex compareCell a.cellList b.cellList)) s t := by
  change (compare s.pc t.pc).then ((compare s.pointer t.pointer).then
    ((compareReads s.readsLeft t.readsLeft).then (compareCells s.cellList t.cellList))) = _
  rw [compareReads_eq, compareCells_eq]
  rfl

instance : Std.TransCmp fun s t : State => List.compareLex compareCell s.cellList t.cellList where
  eq_swap := Std.OrientedCmp.eq_swap
  isLE_trans := Std.TransCmp.isLE_trans

instance : Std.TransOrd State where
  eq_swap {s t} := by
    rw [compare_eq_compareLex, compare_eq_compareLex]
    exact Std.OrientedCmp.eq_swap
  isLE_trans {s t u} := by
    rw [compare_eq_compareLex, compare_eq_compareLex, compare_eq_compareLex]
    exact Std.TransCmp.isLE_trans

/-- Canonical states that are equal in the order are the same. -/
theorem Canonical.eq_of_compare {s t : State} (hs : s.Canonical) (ht : t.Canonical)
    (h : compare s t = .eq) : s = t := by
  simp only [compare_eq_compareLex, compareLex, compareOn, Ordering.then_eq_eq,
    Std.LawfulEqCmp.compare_eq_iff_eq] at h
  obtain ⟨hpc, hpointer, hreads, hcells⟩ := h
  refine hs.ext ht hpc hpointer hreads fun p => ?_
  have hmap : s.cells = t.cells := Std.ExtTreeMap.ext_toList (List.Perm.of_eq hcells)
  rw [cell, cell, hmap]

end TapeReach.State
