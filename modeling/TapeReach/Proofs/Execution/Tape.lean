import TapeReach.Execution.Tape
import TapeReach.Proofs.State.Transition

/-!
# Tapes and the memories of states

A tape of the default shape mirrors a state when both point at the same cell
and hold the same bytes. Every operation of a run on its tape has its like
on states: the wide cells of the tape, cut to eight bits, count and overflow
as bytes do, and both pointers go around at the same ends.
-/

namespace TapeReach

namespace CellWidth

/-- A byte fits into a cell of eight bits. -/
theorem truncate_byte (b : UInt8) : bits8.truncate b.toUInt32 = b.toUInt32 := by
  apply UInt32.toNat_inj.mp
  have hb := b.toNat_lt
  have hmask : (bits8.maxValue).toNat = 2 ^ 8 - 1 := rfl
  rw [truncate, UInt32.toNat_and, hmask, UInt8.toNat_toUInt32, Nat.and_two_pow_sub_one_eq_mod,
    Nat.mod_eq_of_lt hb]

/-- Counting up in a cell of eight bits is counting up in a byte. -/
theorem succ_byte (b : UInt8) :
    (if b.toUInt32 = bits8.maxValue then 0 else b.toUInt32 + 1) = (b + 1).toUInt32 := by
  apply UInt32.toNat_inj.mp
  have hb := b.toNat_lt
  have hmax : b.toUInt32 = bits8.maxValue ↔ b.toNat = 255 := by
    rw [← UInt32.toNat_inj, UInt8.toNat_toUInt32]
    rfl
  simp only [hmax, UInt8.toNat_toUInt32, UInt8.toNat_add]
  split
  · simp_all
  · rw [UInt32.toNat_add, UInt8.toNat_toUInt32]
    simp only [UInt32.reduceToNat, UInt8.reduceToNat]
    omega

/-- Counting down in a cell of eight bits is counting down in a byte. -/
theorem pred_byte (b : UInt8) :
    (if b.toUInt32 = 0 then bits8.maxValue else b.toUInt32 - 1) = (b - 1).toUInt32 := by
  apply UInt32.toNat_inj.mp
  have hb := b.toNat_lt
  have hzero : b.toUInt32 = 0 ↔ b.toNat = 0 := by
    rw [← UInt32.toNat_inj, UInt8.toNat_toUInt32]
    rfl
  simp only [hzero, UInt8.toNat_toUInt32, UInt8.toNat_sub]
  split
  · simp_all [maxValue]
  · rw [UInt32.toNat_sub, UInt8.toNat_toUInt32]
    simp only [UInt32.reduceToNat, UInt8.reduceToNat]
    omega

end CellWidth

namespace Tape

/-- Storing a value changes one cell and no other. -/
theorem get_set (tape : Tape) (p : Nat) (value : UInt32) (q : Nat) :
    (tape.set p value).get q = if q = p then tape.model.width.truncate value else tape.get q :=
  getD_update tape.cells p q (tape.model.width.truncate value) 0

/-- The tape has the default shape and the pointer and the cells of the state. -/
structure Mirrors (tape : Tape) (s : State) : Prop where
  /-- The tape has the default shape. -/
  model : tape.model = {}
  /-- Both point at the same cell. -/
  pointer : tape.pointer = s.pointer
  /-- Both have the same cells. -/
  cells : ∀ p, tape.get p = (s.cell p).toUInt32

/-- The blank tape mirrors the initial state. -/
theorem mirrors_blank (readsLeft : Option Nat) : (blank {}).Mirrors (.initial readsLeft) where
  model := rfl
  pointer := rfl
  cells p := by simp [blank, get, State.cell, State.initial, State.ofParts]

variable {tape : Tape} {s : State}

/-- The pointer goes around at the ends of the tape. -/
theorem Mirrors.wrapping (h : tape.Mirrors s) : tape.model.wrapping = true := by rw [h.model]

/-- The tape has as many cells as the memory of a state. -/
theorem Mirrors.length (h : tape.Mirrors s) : tape.model.length = defaultTapeLength := by
  rw [h.model]

/-- The current cells are the same. -/
theorem Mirrors.current (h : tape.Mirrors s) : tape.current = s.current.toUInt32 := by
  rw [Tape.current, h.cells, h.pointer, State.current]

/-- The current cells are zero together. -/
theorem Mirrors.current_eq_zero (h : tape.Mirrors s) : tape.current = 0 ↔ s.current = 0 := by
  rw [h.current, ← UInt32.toNat_inj, UInt8.toNat_toUInt32, ← UInt8.toNat_inj]
  rfl

/-- Tapes mirror states at every position of the program. -/
theorem Mirrors.jump (h : tape.Mirrors s) (pc : Nat) : tape.Mirrors (s.jump pc) :=
  ⟨h.model, h.pointer, h.cells⟩

/-- Both pointers go to the left. -/
theorem Mirrors.left (h : tape.Mirrors s) (pc : Nat) :
    tape.left.Mirrors (s.move pc s.leftPointer) := by
  have hleft : tape.left = { tape with pointer := s.leftPointer } := by
    by_cases hp : s.pointer = 0
    · simp only [Tape.left, State.leftPointer, h.pointer, hp, Nat.lt_irrefl, if_false, h.wrapping,
        if_true, h.length]
    · simp only [Tape.left, State.leftPointer, h.pointer, hp, Nat.pos_of_ne_zero hp, if_true,
        if_false]
  rw [hleft]
  exact ⟨h.model, rfl, h.cells⟩

/-- Both pointers go to the right. -/
theorem Mirrors.right (h : tape.Mirrors s) (pc : Nat) {right : Nat}
    (hright : s.rightPointer = .ok right) : tape.right.Mirrors (s.move pc right) := by
  have heq : tape.right = { tape with pointer := right } := by
    rw [(State.rightPointer_eq_ok.mp hright).2]
    by_cases hp : s.pointer + 1 < defaultTapeLength
    · simp only [Tape.right, h.pointer, h.length, hp, if_true, Nat.not_le.mpr hp, if_false]
    · simp only [Tape.right, h.pointer, h.length, hp, if_false, h.wrapping, if_true,
        Nat.not_lt.mp hp]
  rw [heq]
  exact ⟨h.model, rfl, h.cells⟩

/-- Both store a byte. -/
theorem Mirrors.store (h : tape.Mirrors s) (pc : Nat) (b : UInt8) (readsLeft : Option Nat) :
    (tape.setCurrent b.toUInt32).Mirrors (s.store pc b readsLeft) where
  model := h.model
  pointer := h.pointer
  cells p := by
    rw [setCurrent, get_set, State.cell_store, h.model, h.pointer, h.cells,
      CellWidth.truncate_byte, apply_ite UInt8.toUInt32]

/-- Storing the current byte of a state again changes nothing. -/
theorem Mirrors.keep (h : tape.Mirrors s) (pc : Nat) (readsLeft : Option Nat) :
    tape.Mirrors (s.store pc s.current readsLeft) where
  model := h.model
  pointer := h.pointer
  cells p := by
    rw [State.cell_store, h.cells]
    split
    · rename_i hp
      rw [hp, State.current]
    · rfl

/-- Both count up. -/
theorem Mirrors.increment (h : tape.Mirrors s) (pc : Nat) :
    tape.increment.Mirrors (s.write pc (s.current + 1)) := by
  have hvalue : tape.increment = tape.setCurrent (s.current + 1).toUInt32 := by
    rw [Tape.increment, h.model, h.current, CellWidth.succ_byte]
  rw [hvalue]
  exact h.store _ _ _

/-- Both count down. -/
theorem Mirrors.decrement (h : tape.Mirrors s) (pc : Nat) :
    tape.decrement.Mirrors (s.write pc (s.current - 1)) := by
  have hvalue : tape.decrement = tape.setCurrent (s.current - 1).toUInt32 := by
    rw [Tape.decrement, h.model, h.current, CellWidth.pred_byte]
  rw [hvalue]
  exact h.store _ _ _

end Tape

end TapeReach
