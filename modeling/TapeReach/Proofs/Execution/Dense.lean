import Mathlib.Algebra.GroupWithZero.Nat
import TapeReach.Proofs.Execution.Tape

/-!
# Dense tapes

A dense tape holds a number modulo a power of two at every position, and its
pointer is one of finitely many positions. Both bounds are part of its type, so
there is nothing to check: counting goes around by the arithmetic of the cells,
and the pointer goes around by that of its positions or stays at the two ends.

A tape that stores only its cells that are not zero represents a dense tape
after every sequence of operations. All sums and differences on the way are
within the words they are computed in, so operations that refuse to overflow
lead to the same tape.
-/

namespace TapeReach

namespace CellWidth

variable (width : CellWidth)

/-- The greatest value of a cell has all its bits set. -/
theorem toNat_maxValue : width.maxValue.toNat = 2 ^ width.bits - 1 := by
  cases width <;> rfl

/-- No cell is wider than a value. -/
theorem two_pow_bits_le : 2 ^ width.bits ≤ 2 ^ 32 := by
  cases width <;> decide

/-- Keeping the bits that fit is taking the remainder. -/
theorem toNat_truncate (value : UInt32) :
    (width.truncate value).toNat = value.toNat % 2 ^ width.bits := by
  rw [truncate, UInt32.toNat_and, toNat_maxValue, Nat.and_two_pow_sub_one_eq_mod]

/-- One is a number of every width. -/
theorem toNat_one : (1 : BitVec width.bits).toNat = 1 := by
  cases width <;> rfl

variable {width} {value : UInt32} {number : BitVec width.bits}

/-- A value that stands for a number is at most the greatest. -/
theorem le_maxValue_of_toNat_eq (h : value.toNat = number.toNat) : value ≤ width.maxValue := by
  have hnumber := number.isLt
  rw [UInt32.le_iff_toNat_le, toNat_maxValue]
  omega

/-- A value other than the greatest can be counted up. -/
theorem succ_lt_of_ne_maxValue (h : value.toNat = number.toNat) (hne : value ≠ width.maxValue) :
    value.toNat + 1 < 2 ^ width.bits := by
  have hle := UInt32.le_iff_toNat_le.mp (le_maxValue_of_toNat_eq h)
  have hne' := UInt32.toNat_inj.not.mpr hne
  rw [toNat_maxValue] at hle hne'
  omega

/-- Counting up in a cell is adding one. -/
theorem toNat_truncate_succ (h : value.toNat = number.toNat) :
    (width.truncate (if value = width.maxValue then 0 else value + 1)).toNat =
      (number + 1).toNat := by
  have hbits := width.two_pow_bits_le
  rw [toNat_truncate, BitVec.toNat_add, toNat_one, ← h]
  by_cases hmax : value = width.maxValue
  · have hvalue := congrArg UInt32.toNat hmax
    have htop : value.toNat + 1 = 2 ^ width.bits := by
      rw [toNat_maxValue] at hvalue
      have htwo := Nat.two_pow_pos width.bits
      omega
    rw [if_pos hmax, htop, Nat.mod_self]
    exact Nat.zero_mod _
  · have hlt := succ_lt_of_ne_maxValue h hmax
    rw [if_neg hmax, UInt32.toNat_add]
    simp only [UInt32.reduceToNat]
    rw [Nat.mod_eq_of_lt (by omega : value.toNat + 1 < 2 ^ 32)]

/-- Counting down in a cell is subtracting one. -/
theorem toNat_truncate_pred (h : value.toNat = number.toNat) :
    (width.truncate (if value = 0 then width.maxValue else value - 1)).toNat =
      (number - 1).toNat := by
  have hnumber := number.isLt
  rw [toNat_truncate, BitVec.toNat_sub, toNat_one, ← h]
  by_cases hzero : value = 0
  · have hvalue : value.toNat = 0 := congrArg UInt32.toNat hzero
    rw [if_pos hzero, toNat_maxValue, hvalue, Nat.add_zero]
  · have hvalue : value.toNat ≠ 0 := fun heq => hzero (UInt32.toNat_inj.mp heq)
    have hone : (1 : UInt32) ≤ value := by
      rw [UInt32.le_iff_toNat_le]
      simp only [UInt32.reduceToNat]
      omega
    have hsum : 2 ^ width.bits - 1 + value.toNat = value.toNat - 1 + 2 ^ width.bits := by omega
    rw [if_neg hzero, UInt32.toNat_sub_of_le _ _ hone, hsum, Nat.add_mod_right]
    rfl

end CellWidth

namespace MemoryModel

/-- A model that was made for a length has at least one cell. -/
instance neZero_length_ofLength (width : CellWidth) (length : Nat) (wrapping : Bool) :
    NeZero (ofLength width length wrapping).length :=
  ⟨Nat.ne_of_gt (Nat.le_max_right length 1)⟩

end MemoryModel

namespace Tape

/-- What can be done to a tape. -/
inductive Operation where
  | left
  | right
  | increment
  | decrement
  | set (position : Nat) (value : UInt32)
  | setCurrent (value : UInt32)
  | reset

/-- Do one operation. -/
def perform (tape : Tape) : Operation → Tape
  | .left => tape.left
  | .right => tape.right
  | .increment => tape.increment
  | .decrement => tape.decrement
  | .set position value => tape.set position value
  | .setCurrent value => tape.setCurrent value
  | .reset => tape.reset

/-- Do some operations in order. -/
def run (tape : Tape) (operations : List Operation) : Tape := operations.foldl perform tape

section Checked

/-- The sum of two numbers, refused from a bound on. -/
def sum? (bound a b : Nat) : Option Nat := if a + b < bound then some (a + b) else none

/-- The difference of two numbers, refused below zero. -/
def difference? (a b : Nat) : Option Nat := if b ≤ a then some (a - b) else none

/-- Do one operation, refusing sums and differences that leave their words: 64 bits for
positions and 32 for values. -/
def performChecked (tape : Tape) : Operation → Option Tape
  | .left =>
    if 0 < tape.pointer then
      (difference? tape.pointer 1).map fun pointer => { tape with pointer := pointer }
    else if tape.model.wrapping then
      (difference? tape.model.length 1).map fun pointer => { tape with pointer := pointer }
    else some tape
  | .right =>
    (sum? (2 ^ 64) tape.pointer 1).map fun pointer =>
      if pointer < tape.model.length then { tape with pointer := pointer }
      else if tape.model.wrapping then { tape with pointer := 0 }
      else tape
  | .increment =>
    if tape.current = tape.model.width.maxValue then some (tape.setCurrent 0)
    else (sum? (2 ^ 32) tape.current.toNat 1).map fun n => tape.setCurrent (.ofNat n)
  | .decrement =>
    if tape.current = 0 then some (tape.setCurrent tape.model.width.maxValue)
    else (difference? tape.current.toNat 1).map fun n => tape.setCurrent (.ofNat n)
  | .set position value => some (tape.set position value)
  | .setCurrent value => some (tape.setCurrent value)
  | .reset => some tape.reset

/-- Do some operations in order, as long as none is refused. -/
def runChecked (tape : Tape) (operations : List Operation) : Option Tape :=
  operations.foldlM performChecked tape

end Checked

end Tape

/-- A tape with all its cells. -/
structure DenseTape (model : MemoryModel) where
  /-- The number at each position, modulo two to the number of bits. -/
  cells : Nat → BitVec model.width.bits
  /-- Position of the current cell, below the number of cells. -/
  pointer : Fin model.length

namespace DenseTape

variable {model : MemoryModel} [NeZero model.length]

/-- All cells are zero and the pointer is on the first. -/
def blank : DenseTape model := ⟨fun _ => 0, 0⟩

/-- The number under the pointer. -/
def current (dense : DenseTape model) : BitVec model.width.bits := dense.cells dense.pointer

/-- Replace the number at a position. -/
def store (dense : DenseTape model) (position : Nat) (number : BitVec model.width.bits) :
    DenseTape model :=
  { dense with cells := Function.update dense.cells position number }

/-- The position on the left, modulo the number of cells or not below the first. -/
def leftOf (pointer : Fin model.length) : Fin model.length :=
  if model.wrapping then pointer - 1
  else ⟨pointer - 1, Nat.lt_of_le_of_lt (Nat.sub_le _ _) pointer.isLt⟩

/-- The position on the right, modulo the number of cells or not above the last. -/
def rightOf (pointer : Fin model.length) : Fin model.length :=
  if model.wrapping then pointer + 1
  else ⟨min (pointer + 1) (model.length - 1),
    Nat.lt_of_le_of_lt (Nat.min_le_right _ _) (Nat.sub_one_lt (NeZero.ne model.length))⟩

/-- Do one operation. -/
def perform (dense : DenseTape model) : Tape.Operation → DenseTape model
  | .left => { dense with pointer := leftOf dense.pointer }
  | .right => { dense with pointer := rightOf dense.pointer }
  | .increment => dense.store dense.pointer (dense.current + 1)
  | .decrement => dense.store dense.pointer (dense.current - 1)
  | .set position value => dense.store position (.ofNat _ value.toNat)
  | .setCurrent value => dense.store dense.pointer (.ofNat _ value.toNat)
  | .reset => blank

/-- Do some operations in order. -/
def run (dense : DenseTape model) (operations : List Tape.Operation) : DenseTape model :=
  operations.foldl perform dense

/-- The position on the left is the one before, if there is one. -/
theorem val_leftOf (pointer : Fin model.length) :
    (leftOf pointer).val =
      if 0 < pointer.val then pointer.val - 1
      else if model.wrapping then model.length - 1 else pointer.val := by
  have hpointer := pointer.isLt
  by_cases hwrapping : model.wrapping = true
  · have hval : (pointer - 1).val =
        (model.length - 1 % model.length + pointer.val) % model.length := rfl
    rw [leftOf, if_pos hwrapping, if_pos hwrapping, hval]
    by_cases hlength : 1 < model.length
    · rw [Nat.mod_eq_of_lt hlength]
      split
      · have hsum : model.length - 1 + pointer.val = pointer.val - 1 + model.length := by omega
        rw [hsum, Nat.add_mod_right, Nat.mod_eq_of_lt (by omega)]
      · rw [Nat.mod_eq_of_lt (by omega)]
        omega
    · -- A single cell is on its own left.
      have hsingle : model.length = 1 := by omega
      have hzero : pointer.val = 0 := by omega
      rw [hzero, if_neg (Nat.lt_irrefl 0), hsingle]
  · rw [leftOf, if_neg hwrapping, if_neg hwrapping]
    change pointer.val - 1 = _
    split <;> omega

/-- The position on the right is the one behind, if there is one. -/
theorem val_rightOf (pointer : Fin model.length) :
    (rightOf pointer).val =
      if pointer.val + 1 < model.length then pointer.val + 1
      else if model.wrapping then 0 else pointer.val := by
  have hpointer := pointer.isLt
  by_cases hwrapping : model.wrapping = true
  · have hval : (pointer + 1).val = (pointer.val + 1 % model.length) % model.length := rfl
    rw [rightOf, if_pos hwrapping, if_pos hwrapping, hval, Nat.add_mod_mod]
    split
    · exact Nat.mod_eq_of_lt (by omega)
    · have hlast : pointer.val + 1 = model.length := by omega
      rw [hlast, Nat.mod_self]
  · rw [rightOf, if_neg hwrapping, if_neg hwrapping]
    change min (pointer.val + 1) (model.length - 1) = _
    split <;> omega

end DenseTape

namespace Tape

/-- The tape has the pointer and the numbers of a dense one, and stores no zero. -/
structure Represents {model : MemoryModel} (tape : Tape) (dense : DenseTape model) : Prop where
  /-- Both have the same shape. -/
  model : tape.model = model
  /-- Both point at the same cell. -/
  pointer : tape.pointer = dense.pointer
  /-- Both have the same cells. -/
  cells : ∀ p, (tape.get p).toNat = (dense.cells p).toNat
  /-- No zero cell is stored. -/
  nonzero : ∀ p : Nat, tape.cells[p]? ≠ some 0

variable {model : MemoryModel} {tape : Tape} {dense : DenseTape model}

section Same

/-- The current cells are the same. -/
theorem Represents.current (h : tape.Represents dense) :
    tape.current.toNat = dense.current.toNat := by
  rw [Tape.current, h.cells, h.pointer, DenseTape.current]

/-- The pointer is on a cell of the tape. -/
theorem Represents.pointer_lt (h : tape.Represents dense) : tape.pointer < tape.model.length := by
  rw [h.pointer, h.model]
  exact dense.pointer.isLt

/-- The tape lists exactly the cells that are not zero. -/
theorem Represents.mem_toList (h : tape.Represents dense) {p : Nat} {value : UInt32} :
    (p, value) ∈ tape.toList ↔ value ≠ 0 ∧ value.toNat = (dense.cells p).toNat := by
  have hcell := h.cells p
  have hnonzero := h.nonzero p
  rw [toList, Std.ExtTreeMap.mem_toList_iff_getElem?_eq_some, ← hcell, UInt32.toNat_inj]
  unfold get
  cases hstored : tape.cells[p]? with
  | none =>
    rw [Option.getD_none]
    exact iff_of_false (fun heq => by cases heq) fun hand => hand.1 hand.2
  | some stored =>
    rw [hstored, ne_eq, Option.some.injEq] at hnonzero
    rw [Option.getD_some, Option.some.injEq]
    constructor
    · rintro rfl
      exact ⟨hnonzero, rfl⟩
    · rintro ⟨_, rfl⟩
      rfl

/-- Moving both pointers to one position keeps tapes together. -/
theorem Represents.move (h : tape.Represents dense) {position : Nat} {pointer : Fin model.length}
    (hposition : position = pointer.val) :
    { tape with pointer := position }.Represents { dense with pointer := pointer } :=
  ⟨h.model, hposition, h.cells, h.nonzero⟩

/-- Storing one number in both keeps tapes together. -/
theorem Represents.store (h : tape.Represents dense) (position : Nat) {value : UInt32}
    {number : BitVec model.width.bits}
    (hvalue : (model.width.truncate value).toNat = number.toNat) :
    (tape.set position value).Represents (dense.store position number) where
  model := h.model
  pointer := h.pointer
  cells p := by
    change _ = (Function.update dense.cells position number p).toNat
    rw [get_set, h.model, Function.update_apply]
    split
    · exact hvalue
    · exact h.cells p
  nonzero := update_ne_some_zero h.nonzero position (tape.model.width.truncate value)

/-- On a tape whose length is a word no operation is refused. -/
theorem Represents.performChecked_eq (h : tape.Represents dense) (hlength : model.length < 2 ^ 64)
    (operation : Operation) :
    tape.performChecked operation = some (tape.perform operation) := by
  have hpointer := h.pointer_lt
  have hmodel := h.model
  have hcurrent := h.current
  cases operation with
  | left =>
    have hone : 1 ≤ tape.model.length := by omega
    simp only [performChecked, perform, left, difference?, if_pos hone, Option.map_some]
    by_cases hpos : 0 < tape.pointer
    · have hone' : 1 ≤ tape.pointer := hpos
      rw [if_pos hpos, if_pos hpos, if_pos hone', Option.map_some]
    · rw [if_neg hpos, if_neg hpos, apply_ite some]
  | right =>
    have hsum : tape.pointer + 1 < 2 ^ 64 := by
      rw [hmodel] at hpointer
      omega
    simp only [performChecked, perform, right, sum?, if_pos hsum, Option.map_some]
  | increment =>
    simp only [performChecked, perform, increment]
    split
    · rfl
    · rename_i hmax
      rw [hmodel] at hmax
      have hbits := model.width.two_pow_bits_le
      have hlt := CellWidth.succ_lt_of_ne_maxValue hcurrent hmax
      have hsum : tape.current.toNat + 1 < 2 ^ 32 := by omega
      have hvalue : UInt32.ofNat (tape.current.toNat + 1) = tape.current + 1 := by
        rw [UInt32.ofNat_add, UInt32.ofNat_toNat]
        rfl
      rw [sum?, if_pos hsum, Option.map_some, hvalue]
  | decrement =>
    simp only [performChecked, perform, decrement]
    split
    · rfl
    · rename_i hzero
      have hone : 1 ≤ tape.current.toNat := by
        have hne : tape.current.toNat ≠ 0 := fun heq => hzero (UInt32.toNat_inj.mp heq)
        omega
      have hvalue : UInt32.ofNat (tape.current.toNat - 1) = tape.current - 1 := by
        rw [UInt32.ofNat_sub hone, UInt32.ofNat_toNat]
        rfl
      rw [difference?, if_pos hone, Option.map_some, hvalue]
  | set | setCurrent | reset => rfl

end Same

section Runs

variable [NeZero model.length]

/-- The blank tapes of a shape belong together. -/
theorem represents_blank : (blank model).Represents (DenseTape.blank : DenseTape model) where
  model := rfl
  pointer := rfl
  cells p := by simp [blank, get, DenseTape.blank]
  nonzero p := by simp [blank]

/-- Every operation keeps tapes together. -/
theorem Represents.perform (h : tape.Represents dense) (operation : Operation) :
    (tape.perform operation).Represents (dense.perform operation) := by
  have hcurrent := h.current
  have hmodel := h.model
  have hpointer := h.pointer
  cases operation with
  | left =>
    have hleft : tape.left = { tape with pointer := (DenseTape.leftOf dense.pointer).val } := by
      rw [DenseTape.val_leftOf, ← hpointer, ← hmodel, Tape.left]
      split_ifs <;> rfl
    rw [Tape.perform, hleft]
    exact h.move rfl
  | right =>
    have hright : tape.right = { tape with pointer := (DenseTape.rightOf dense.pointer).val } := by
      rw [DenseTape.val_rightOf, ← hpointer, ← hmodel, Tape.right]
      split_ifs <;> rfl
    rw [Tape.perform, hright]
    exact h.move rfl
  | increment =>
    have hvalue := CellWidth.toNat_truncate_succ hcurrent
    rw [Tape.perform, DenseTape.perform, Tape.increment, hmodel, setCurrent, hpointer]
    exact h.store dense.pointer hvalue
  | decrement =>
    have hvalue := CellWidth.toNat_truncate_pred hcurrent
    rw [Tape.perform, DenseTape.perform, Tape.decrement, hmodel, setCurrent, hpointer]
    exact h.store dense.pointer hvalue
  | set position value =>
    refine h.store position ?_
    rw [CellWidth.toNat_truncate, BitVec.toNat_ofNat]
  | setCurrent value =>
    rw [Tape.perform, DenseTape.perform, setCurrent, hpointer]
    refine h.store dense.pointer ?_
    rw [CellWidth.toNat_truncate, BitVec.toNat_ofNat]
  | reset =>
    rw [Tape.perform, DenseTape.perform, reset, hmodel]
    exact represents_blank

/-- Every sequence of operations keeps tapes together. -/
theorem Represents.run (h : tape.Represents dense) (operations : List Operation) :
    (tape.run operations).Represents (dense.run operations) := by
  induction operations generalizing tape dense with
  | nil => exact h
  | cons operation rest ih => exact ih (h.perform operation)

/-- On a tape whose length is a word no sequence of operations is refused. -/
theorem Represents.runChecked_eq (h : tape.Represents dense) (hlength : model.length < 2 ^ 64)
    (operations : List Operation) : tape.runChecked operations = some (tape.run operations) := by
  induction operations generalizing tape dense with
  | nil => rfl
  | cons operation rest ih =>
    rw [runChecked, List.foldlM_cons, h.performChecked_eq hlength operation]
    exact ih (h.perform operation)

end Runs

/-- A tape of any shape behaves as the dense tape of its shape under every sequence of
operations: it has the same pointer, which is below the number of cells, and the same number
at each position. It stores exactly the cells that are not zero, none above the greatest
value, and no sum or difference on the way leaves its word. -/
theorem run_represents_dense (width : CellWidth) (length : UInt64) (wrapping : Bool)
    (operations : List Operation) :
    let model := MemoryModel.ofLength width length.toNat wrapping
    let tape := (blank model).run operations
    let dense := (DenseTape.blank : DenseTape model).run operations
    tape.pointer = dense.pointer ∧ tape.pointer < model.length ∧
      (∀ p, (tape.get p).toNat = (dense.cells p).toNat) ∧
      tape.current.toNat = dense.current.toNat ∧
      (∀ p value, (p, value) ∈ tape.toList ↔ value ≠ 0 ∧ value.toNat = (dense.cells p).toNat) ∧
      (∀ entry ∈ tape.toList, entry.2 ≠ 0 ∧ entry.2 ≤ width.maxValue) ∧
      (blank model).runChecked operations = some tape := by
  intro model tape dense
  have hblank : (blank model).Represents (DenseTape.blank : DenseTape model) := represents_blank
  have h : tape.Represents dense := hblank.run operations
  have hlength : model.length < 2 ^ 64 := by
    have hword := length.toNat_lt
    change max length.toNat 1 < 2 ^ 64
    omega
  have hpointer := h.pointer_lt
  rw [h.model] at hpointer
  refine ⟨h.pointer, hpointer, h.cells, h.current, fun p value => h.mem_toList,
    fun entry hentry => ?_, hblank.runChecked_eq hlength operations⟩
  obtain ⟨hne, hvalue⟩ := h.mem_toList.mp hentry
  exact ⟨hne, CellWidth.le_maxValue_of_toNat_eq hvalue⟩

/-- Operations that leave a single cell on both sides, with a store behind it. -/
def around : List Operation := [.left, .decrement, .set 7 511, .right]

/-- On a single cell that goes around, the pointer comes back at once and zero is followed
by the greatest byte when counting down. -/
theorem around_represents_dense :
    ((blank (.ofLength .bits8 0 true)).run around).toList = [(0, 255), (7, 255)] ∧
      ((blank (.ofLength .bits8 0 true)).run around).pointer < 1 ∧
      (255 : UInt32) ≠ 0 ∧ (255 : UInt32) ≤ CellWidth.bits8.maxValue ∧
      (blank (.ofLength .bits8 0 true)).runChecked around =
        some ((blank (.ofLength .bits8 0 true)).run around) := by
  have hlist : ((blank (.ofLength .bits8 0 true)).run around).toList = [(0, 255), (7, 255)] := by
    decide
  have hmem : (0, 255) ∈ ((blank (.ofLength .bits8 0 true)).run around).toList := by
    rw [hlist]
    exact List.mem_cons_self
  obtain ⟨_, hpointer, _, _, _, hstored, hchecked⟩ := run_represents_dense .bits8 0 true around
  obtain ⟨hne, hle⟩ := hstored (0, 255) hmem
  exact ⟨hlist, hpointer, hne, hle, hchecked⟩

end Tape

end TapeReach
