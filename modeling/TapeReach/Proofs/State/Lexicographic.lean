import TapeReach.Proofs.State.Built
import TapeReach.Proofs.State.Order

/-!
# States in their order

What the comparison of states says is said here without it. A state comes
before another if its position is lower; if the positions are the same, its
pointer decides, then its budget, where the unlimited one comes first, and last
the list of its cells. On states that operations build, this is a strict total
order: of two states that are not the same, exactly one comes before the other.
-/

namespace TapeReach.State

/-- The first budget comes before the second. -/
inductive ReadsBefore : Option Nat → Option Nat → Prop
  /-- The unlimited budget comes before every finite one. -/
  | unlimited (n : Nat) : ReadsBefore none (some n)
  /-- Finite budgets come in the order of their reads. -/
  | finite {m n : Nat} (h : m < n) : ReadsBefore (some m) (some n)

/-- The first list of cells comes before the second: it ends first, or it is smaller at the
first place where they differ, by position and then by value. -/
def CellsBefore : List (Nat × UInt8) → List (Nat × UInt8) → Prop :=
  List.Lex (Prod.Lex (· < ·) (· < ·))

/-- The first state comes before the second. -/
inductive Before (s t : State) : Prop
  /-- By its position. -/
  | pc (h : s.pc < t.pc)
  /-- By its pointer. -/
  | pointer (hpc : s.pc = t.pc) (h : s.pointer < t.pointer)
  /-- By its budget. -/
  | reads (hpc : s.pc = t.pc) (hpointer : s.pointer = t.pointer)
      (h : ReadsBefore s.readsLeft t.readsLeft)
  /-- By its cells. -/
  | cells (hpc : s.pc = t.pc) (hpointer : s.pointer = t.pointer)
      (hreads : s.readsLeft = t.readsLeft) (h : CellsBefore s.cellList t.cellList)

/-- Budgets are compared as they come. -/
theorem compareReads_eq_lt {a b : Option Nat} : compareReads a b = .lt ↔ ReadsBefore a b := by
  cases a with
  | none =>
    cases b with
    | none => exact ⟨nofun, nofun⟩
    | some n => exact ⟨fun _ => .unlimited n, fun _ => rfl⟩
  | some m =>
    cases b with
    | none => exact ⟨nofun, nofun⟩
    | some n =>
      rw [compareReads, Nat.compare_eq_lt]
      exact ⟨.finite, fun | .finite h => h⟩

/-- Lists of cells are compared as they come. -/
theorem compareCells_eq_lt {a b : List (Nat × UInt8)} :
    compareCells a b = .lt ↔ CellsBefore a b := by
  induction a generalizing b with
  | nil =>
    cases b with
    | nil => exact ⟨nofun, nofun⟩
    | cons y b => exact ⟨fun _ => .nil, fun _ => rfl⟩
  | cons x a ih =>
    cases b with
    | nil => exact ⟨nofun, nofun⟩
    | cons y b =>
      obtain ⟨p, v⟩ := x
      obtain ⟨q, w⟩ := y
      have hvalue : compare v w = .lt ↔ v < w := Std.compare_eq_lt
      rw [compareCells, Ordering.then_eq_lt, Ordering.then_eq_lt, Ordering.then_eq_eq, ih,
        Nat.compare_eq_lt, Nat.compare_eq_eq, Std.LawfulEqOrd.compare_eq_iff_eq, hvalue,
        ← Prod.mk.injEq, CellsBefore, List.cons_lex_cons_iff, Prod.lex_def]

/-- States are compared as they come. -/
theorem compare_eq_lt {s t : State} : compare s t = .lt ↔ Before s t := by
  change (compare s.pc t.pc).then ((compare s.pointer t.pointer).then
    ((compareReads s.readsLeft t.readsLeft).then (compareCells s.cellList t.cellList))) = .lt ↔ _
  rw [Ordering.then_eq_lt, Ordering.then_eq_lt, Ordering.then_eq_lt, compareReads_eq_lt,
    compareCells_eq_lt, compareReads_eq, Nat.compare_eq_lt, Nat.compare_eq_eq, Nat.compare_eq_lt,
    Nat.compare_eq_eq, Std.LawfulEqOrd.compare_eq_iff_eq]
  constructor
  · rintro (h | ⟨hpc, h | ⟨hpointer, h | ⟨hreads, h⟩⟩⟩)
    · exact .pc h
    · exact .pointer hpc h
    · exact .reads hpc hpointer h
    · exact .cells hpc hpointer hreads h
  · intro h
    cases h with
    | pc h => exact .inl h
    | pointer hpc h => exact .inr ⟨hpc, .inl h⟩
    | reads hpc hpointer h => exact .inr ⟨hpc, .inr ⟨hpointer, .inl h⟩⟩
    | cells hpc hpointer hreads h => exact .inr ⟨hpc, .inr ⟨hpointer, .inr ⟨hreads, h⟩⟩⟩

variable {s t : State}

/-- The cells of a state come in the order of their positions. -/
theorem pairwise_cellList (s : State) : s.cellList.Pairwise fun a b => a.1 < b.1 :=
  Std.ExtTreeMap.ordered_keys_toList.imp Nat.compare_eq_lt.mp

/-- The cells of a canonical state are those that are not zero. -/
theorem Canonical.mem_cellList (h : s.Canonical) {p : Nat} {v : UInt8} :
    (p, v) ∈ s.cellList ↔ v ≠ 0 ∧ s.cell p = v := by
  rw [cellList, Std.ExtTreeMap.mem_toList_iff_getElem?_eq_some, h.getElem?_eq]
  split
  · rename_i hzero
    rw [hzero]
    simp only [reduceCtorEq, false_iff, not_and]
    exact fun hne heq => hne heq.symm
  · rename_i hne
    rw [Option.some.injEq]
    exact ⟨fun heq => ⟨heq ▸ hne, heq⟩, And.right⟩

/-- Canonical states are equal in the order exactly when they are the same. -/
theorem Canonical.compare_eq_iff (hs : s.Canonical) (ht : t.Canonical) :
    compare s t = .eq ↔ s = t :=
  ⟨hs.eq_of_compare ht, fun h => h ▸ Std.compare_self⟩

/-- The comparison of states that operations build is a strict total order that agrees with
equality. It turns around with its arguments; it is antisymmetric, transitive and total; it
says that states are equal exactly when they are; and it is the lexicographic order of
position, pointer, budget and cells, which are those that are not zero in ascending order. -/
theorem compare_strict_total (hs : s.Built) (ht : t.Built) :
    compare t s = (compare s t).swap ∧
    (compare s t ≠ .gt → compare t s ≠ .gt → s = t) ∧
    (∀ u, compare s t ≠ .gt → compare t u ≠ .gt → compare s u ≠ .gt) ∧
    (∀ u, compare s t = .lt → compare t u = .lt → compare s u = .lt) ∧
    (compare s t = .lt ∨ s = t ∨ compare t s = .lt) ∧
    (compare s t = .eq ↔ (s == t) = true) ∧
    (compare s t = .lt ↔ Before s t) ∧
    (s.cellList.Pairwise fun a b => a.1 < b.1) ∧
    ∀ p v, (p, v) ∈ s.cellList ↔ v ≠ 0 ∧ s.cell p = v := by
  have hswap : compare t s = (compare s t).swap := Std.OrientedOrd.eq_swap
  have hequal := hs.canonical.compare_eq_iff ht.canonical
  refine ⟨hswap, ?_, ?_, fun u => Std.TransCmp.lt_trans, ?_, ?_, compare_eq_lt,
    pairwise_cellList s, fun p v => hs.canonical.mem_cellList⟩
  · intro hle hge
    rw [hswap] at hge
    refine hequal.mp ?_
    cases h : compare s t with
    | lt => exact absurd (h ▸ rfl) hge
    | eq => rfl
    | gt => exact absurd h hle
  · simp only [← Ordering.isLE_iff_ne_gt]
    exact fun u => Std.TransOrd.isLE_trans
  · cases h : compare s t with
    | lt => exact .inl rfl
    | eq => exact .inr (.inl (hequal.mp h))
    | gt => exact .inr (.inr (by rw [hswap, h]; rfl))
  · rw [hequal, beq_iff_eq]

/-- Without a budget, with one, and with a cell that was written: each state comes before
the next, the first before the last, and none is equal to another. -/
theorem compare_increasing :
    compare (ofCells 1 0 [] none) (ofCells 1 0 [] (some 0)) = .lt ∧
      compare (ofCells 1 0 [] (some 0)) (ofCells 1 0 [(0, 1), (5, 0)] (some 0)) = .lt ∧
      compare (ofCells 1 0 [] none) (ofCells 1 0 [(0, 1), (5, 0)] (some 0)) = .lt ∧
      (ofCells 1 0 [] none == ofCells 1 0 [] (some 0)) = false := by
  have hwritten : (ofCells 1 0 [(0, 1), (5, 0)] (some 0)).Built := .ofCells _ _ _ _
  obtain ⟨_, _, _, htrans, _, hequal, hfirst, _, _⟩ :=
    compare_strict_total (.ofCells 1 0 [] none) (.ofCells 1 0 [] (some 0))
  obtain ⟨_, _, _, _, _, _, hsecond, _, _⟩ :=
    compare_strict_total (.ofCells 1 0 [] (some 0)) hwritten
  obtain ⟨_, _, _, _, _, _, _, _, hmem⟩ := compare_strict_total hwritten hwritten
  have hcells : CellsBefore (ofCells 1 0 [] (some 0)).cellList
      (ofCells 1 0 [(0, 1), (5, 0)] (some 0)).cellList := by
    obtain ⟨_, _, heq⟩ :=
      List.exists_cons_of_ne_nil (List.ne_nil_of_mem ((hmem 0 1).mpr ⟨by decide, rfl⟩))
    rw [heq]
    exact .nil
  have hlt := hfirst.mpr (.reads rfl rfl (.unlimited 0))
  have hlt' := hsecond.mpr (.cells (Eq.refl 1) (Eq.refl 0) (Eq.refl (some 0)) hcells)
  refine ⟨hlt, hlt', htrans _ hlt hlt', ?_⟩
  rw [Bool.eq_false_iff]
  intro heq
  rw [hlt] at hequal
  exact absurd (hequal.mpr heq) (by decide)

end TapeReach.State
