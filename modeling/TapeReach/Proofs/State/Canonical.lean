import Mathlib.Data.List.Perm.Basic
import TapeReach.State.Basic

/-!
# Canonical states

A state is canonical when what it stores beside its configuration can be
computed from the configuration: no zero cell is stored, the digest is that of
the stored cells and the fingerprint that of the whole. Every operation on
states keeps this, because a write changes the digest by exactly the
contribution of the cell it changes. Canonical states are told apart by
position, pointer, reads left and the values of their cells alone.
-/

namespace TapeReach

namespace Digest

/-- The sum over the cells may start anywhere. -/
theorem foldl_add_cell (cells : List (Nat × UInt8)) (start : UInt64) :
    cells.foldl (fun sum entry => sum + cell entry.1 entry.2) start = start + memory cells := by
  induction cells generalizing start with
  | nil => simp only [memory, List.foldl_nil, UInt64.add_zero]
  | cons entry cells ih =>
    simp only [memory, List.foldl_cons, UInt64.zero_add]
    rw [ih, ih (cell entry.1 entry.2), UInt64.add_assoc]

/-- The first cell contributes its own digest. -/
theorem memory_cons (position : Nat) (value : UInt8) (cells : List (Nat × UInt8)) :
    memory ((position, value) :: cells) = cell position value + memory cells := by
  rw [memory, List.foldl_cons, foldl_add_cell, UInt64.zero_add]

/-- The order of the cells does not matter. -/
theorem memory_perm {cells cells' : List (Nat × UInt8)} (h : cells.Perm cells') :
    memory cells = memory cells' := by
  induction h with
  | nil => rfl
  | cons entry _ ih => rw [memory_cons, memory_cons, ih]
  | swap a b cells =>
    rw [memory_cons, memory_cons, memory_cons, memory_cons]
    grind
  | trans _ _ ih ih' => rw [ih, ih']

/-- A zero cell contributes nothing. -/
@[simp] theorem cell_zero (position : Nat) : cell position 0 = 0 := rfl

end Digest

section Memory

variable {cells : Std.ExtTreeMap Nat UInt8} {position : Nat} {value : UInt8}

/-- The list of a memory has no repeats. -/
theorem nodup_toList (cells : Std.ExtTreeMap Nat UInt8) : cells.toList.Nodup := by
  refine Std.ExtTreeMap.distinct_keys_toList.imp fun {a b} hne heq => ?_
  exact hne (by rw [heq, Std.compare_self])

/-- A stored cell is one entry beside the others. -/
theorem toList_perm_of_getElem? (h : cells[position]? = some value) :
    cells.toList.Perm ((position, value) :: (cells.erase position).toList) := by
  have hnot : (position, value) ∉ (cells.erase position).toList := by
    rw [Std.ExtTreeMap.mem_toList_iff_getElem?_eq_some, Std.ExtTreeMap.getElem?_erase]
    simp
  refine (List.perm_ext_iff_of_nodup (nodup_toList _)
    (List.nodup_cons.mpr ⟨hnot, nodup_toList _⟩)).mpr fun ⟨p, v⟩ => ?_
  rw [List.mem_cons, Std.ExtTreeMap.mem_toList_iff_getElem?_eq_some,
    Std.ExtTreeMap.mem_toList_iff_getElem?_eq_some, Std.ExtTreeMap.getElem?_erase, Prod.mk.injEq]
  by_cases hp : position = p
  · subst hp
    simp [h, eq_comm]
  · simp [hp, Ne.symm hp]

/-- The digest of a memory is that of one cell and of the rest. -/
theorem Digest.memory_erase (cells : Std.ExtTreeMap Nat UInt8) (position : Nat) :
    Digest.memory cells.toList =
      Digest.cell position ((cells[position]?).getD 0) +
        Digest.memory (cells.erase position).toList := by
  cases h : cells[position]? with
  | none =>
    have herase : cells.erase position = cells := by
      refine Std.ExtTreeMap.ext_getElem? fun {p} => ?_
      rw [Std.ExtTreeMap.getElem?_erase]
      split
      · rename_i hp
        rw [← Std.LawfulEqCmp.compare_eq_iff_eq.mp hp, h]
      · rfl
    rw [herase, Option.getD_none, Digest.cell_zero, UInt64.zero_add]
  | some value =>
    rw [Digest.memory_perm (toList_perm_of_getElem? h), Digest.memory_cons, Option.getD_some]

/-- The digest of a memory after a store is that of the new cell and of the rest. -/
theorem Digest.memory_insert (cells : Std.ExtTreeMap Nat UInt8) (position : Nat) (value : UInt8) :
    Digest.memory (cells.insert position value).toList =
      Digest.cell position value + Digest.memory (cells.erase position).toList := by
  have herase : (cells.insert position value).erase position = cells.erase position := by
    refine Std.ExtTreeMap.ext_getElem? fun {p} => ?_
    rw [Std.ExtTreeMap.getElem?_erase, Std.ExtTreeMap.getElem?_erase,
      Std.ExtTreeMap.getElem?_insert]
    split <;> simp_all
  rw [Digest.memory_erase _ position, Std.ExtTreeMap.getElem?_insert_self, Option.getD_some, herase]

/-- A table that leaves out its zeros reads back what was last put in. -/
theorem getD_update {α : Type} [DecidableEq α] (table : Std.ExtTreeMap Nat α) (p q : Nat)
    (value zero : α) :
    ((if value = zero then table.erase p else table.insert p value)[q]?).getD zero =
      if q = p then value else (table[q]?).getD zero := by
  by_cases hvalue : value = zero
  · rw [if_pos hvalue, Std.ExtTreeMap.getElem?_erase]
    by_cases hq : q = p
    · simp [hq, hvalue]
    · simp [hq, Ne.symm hq]
  · rw [if_neg hvalue, Std.ExtTreeMap.getElem?_insert]
    by_cases hq : q = p
    · simp [hq]
    · simp [hq, Ne.symm hq]

/-- A table that leaves out its zeros stores none. -/
theorem update_ne_some_zero {α : Type} [DecidableEq α] {table : Std.ExtTreeMap Nat α} {zero : α}
    (h : ∀ q : Nat, table[q]? ≠ some zero) (p : Nat) (value : α) (q : Nat) :
    (if value = zero then table.erase p else table.insert p value)[q]? ≠ some zero := by
  split
  · rw [Std.ExtTreeMap.getElem?_erase]
    split
    · simp only [ne_eq, reduceCtorEq, not_false_eq_true]
    · exact h q
  · rename_i hvalue
    rw [Std.ExtTreeMap.getElem?_insert]
    split
    · simpa only [ne_eq, Option.some.injEq] using hvalue
    · exact h q

end Memory

namespace State

/-- What is stored beside the configuration agrees with it. -/
structure Canonical (s : State) : Prop where
  /-- The digest is that of the stored cells. -/
  digest : s.digest = Digest.memory s.cells.toList
  /-- The fingerprint is that of the configuration. -/
  fingerprint : s.fingerprint = fingerprintOf s.pc s.pointer s.readsLeft s.digest
  /-- No zero cell is stored. -/
  nonzero : ∀ p : Nat, s.cells[p]? ≠ some 0

/-- A store changes the current cell and no other. -/
theorem cell_store (s : State) (pc : Nat) (value : UInt8) (readsLeft : Option Nat) (p : Nat) :
    (s.store pc value readsLeft).cell p = if p = s.pointer then value else s.cell p :=
  getD_update s.cells s.pointer p value 0

/-- The initial state is canonical. -/
theorem canonical_initial (readsLeft : Option Nat) : (initial readsLeft).Canonical where
  digest := rfl
  fingerprint := rfl
  nonzero p := by simp [initial, ofParts]

variable {s t : State}

/-- Jumps keep states canonical. -/
theorem Canonical.jump (h : s.Canonical) (pc : Nat) : (s.jump pc).Canonical where
  digest := h.digest
  fingerprint := rfl
  nonzero := h.nonzero

/-- Moves keep states canonical. -/
theorem Canonical.move (h : s.Canonical) (pc pointer : Nat) : (s.move pc pointer).Canonical where
  digest := h.digest
  fingerprint := rfl
  nonzero := h.nonzero

/-- Stores keep states canonical. -/
theorem Canonical.store (h : s.Canonical) (pc : Nat) (value : UInt8) (readsLeft : Option Nat) :
    (s.store pc value readsLeft).Canonical where
  digest := by
    have hrest := Digest.memory_erase s.cells s.pointer
    have hinsert := Digest.memory_insert s.cells s.pointer value
    simp only [State.store, ofParts, Digest.update, State.current, State.cell, h.digest]
    split
    · rename_i hvalue
      rw [hrest, hvalue, Digest.cell_zero]
      grind
    · rw [hrest, hinsert]
      grind
  fingerprint := rfl
  nonzero := update_ne_some_zero h.nonzero s.pointer value

/-- In canonical states the stored cells are those that are not zero. -/
theorem Canonical.getElem?_eq (h : s.Canonical) (p : Nat) :
    s.cells[p]? = if s.cell p = 0 then none else some (s.cell p) := by
  have hp := h.nonzero p
  unfold cell
  generalize s.cells[p]? = entry at hp ⊢
  cases entry with
  | none => simp only [Option.getD_none, if_true]
  | some value =>
    rw [ne_eq, Option.some.injEq] at hp
    simp only [Option.getD_some, hp, if_false]

/-- Canonical states in which all cells have the same values store the same. -/
theorem Canonical.cells_eq (hs : s.Canonical) (ht : t.Canonical)
    (hcells : ∀ p, s.cell p = t.cell p) : s.cells = t.cells := by
  refine Std.ExtTreeMap.ext_getElem? fun {p} => ?_
  rw [hs.getElem?_eq, ht.getElem?_eq, hcells]

/-- Canonical states with equal configurations are equal. -/
theorem Canonical.ext (hs : s.Canonical) (ht : t.Canonical) (hpc : s.pc = t.pc)
    (hpointer : s.pointer = t.pointer) (hreads : s.readsLeft = t.readsLeft)
    (hcells : ∀ p, s.cell p = t.cell p) : s = t := by
  have hmap := hs.cells_eq ht hcells
  have hdigest : s.digest = t.digest := by rw [hs.digest, ht.digest, hmap]
  have hfingerprint : s.fingerprint = t.fingerprint := by
    rw [hs.fingerprint, ht.fingerprint, hpc, hpointer, hreads, hdigest]
  cases s
  cases t
  simp_all

end State

end TapeReach
