import TapeReach.Proofs.State.Built
import TapeReach.Proofs.State.Division

/-!
# Neighbouring states have different fingerprints

A fingerprint is a chain of extensions, each of them injective in what it
extends and in what it extends by. So states that differ in their position,
pointer or budget alone have different fingerprints. For states that differ in
one cell the digests of the memories have to be told apart as well, and these
are sums: it is enough that no two values of a cell on the tape contribute the
same. For a zero and another value this is a fact about the seed. Four bits of
a digest, added up, tell the digest of every position on the tape from every
byte.
-/

namespace TapeReach

namespace Digest

section Injective

variable {d e : UInt64}

/-- Extending by the same byte keeps digests apart. -/
@[simp] theorem extendByte_left_inj {byte : UInt8} :
    extendByte d byte = extendByte e byte ↔ d = e := by
  rw [extendByte_eq, extendByte_eq, (bijective_shift_iterate 8).injective.eq_iff,
    UInt64.xor_left_inj]

/-- Extending the same digest keeps bytes apart. -/
@[simp] theorem extendByte_right_inj {byte byte' : UInt8} :
    extendByte d byte = extendByte d byte' ↔ byte = byte' := by
  rw [extendByte_eq, extendByte_eq, (bijective_shift_iterate 8).injective.eq_iff,
    UInt64.xor_right_inj, UInt8.toUInt64_inj]

/-- Extending by the same word keeps digests apart. -/
@[simp] theorem extendWord_left_inj {word : UInt64} :
    extendWord d word = extendWord e word ↔ d = e := by
  rw [extendWord_eq, extendWord_eq, (bijective_shift_iterate 64).injective.eq_iff,
    UInt64.xor_left_inj]

/-- Extending the same digest keeps words apart. -/
@[simp] theorem extendWord_right_inj {word word' : UInt64} :
    extendWord d word = extendWord d word' ↔ word = word' := by
  rw [extendWord_eq, extendWord_eq, (bijective_shift_iterate 64).injective.eq_iff,
    UInt64.xor_right_inj]

/-- Extending by the same number keeps digests apart. -/
@[simp] theorem extendNat_left_inj {n : Nat} : extendNat d n = extendNat e n ↔ d = e :=
  extendWord_left_inj

/-- Extending the same digest keeps numbers of sixty-four bits apart. -/
theorem extendNat_right_inj {m n : Nat} (hm : m < 2 ^ 64) (hn : n < 2 ^ 64) :
    extendNat d m = extendNat d n ↔ m = n := by
  rw [extendNat, extendNat, extendWord_right_inj, ← UInt64.toNat_inj,
    UInt64.toNat_ofNat_of_lt' hm, UInt64.toNat_ofNat_of_lt' hn]

end Injective

section Cell

/-- The sum of four bits of a word. They are chosen so that the sum is zero for every byte and for
what a position of fifteen bits adds to a digest, but not for what the seed adds. -/
def check (t : UInt64) : UInt64 :=
  ((t >>> 34) ^^^ (t >>> 49) ^^^ (t >>> 50) ^^^ (t >>> 55)) &&& 1

/-- Leaving out bits is linear. -/
theorem linear_and (mask : UInt64) : Linear (· &&& mask) := by
  intro a b
  simp only [← UInt64.toNat_inj, UInt64.toNat_and, UInt64.toNat_xor, Nat.and_xor_distrib_right]

/-- The sum of the four bits is linear. -/
theorem linear_check : Linear check :=
  (linear_and 1).comp ((((linear_shiftRight 34).sum (linear_shiftRight 49)).sum
    (linear_shiftRight 50)).sum (linear_shiftRight 55))

/-- The constant zero is linear. -/
theorem linear_zero : Linear fun _ => 0 := fun _ _ => UInt64.xor_self.symm

/-- A byte has none of the four bits. -/
theorem check_byte (byte : UInt8) : check byte.toUInt64 = 0 := by
  rw [← UInt64.ofNat_uInt8ToNat]
  exact linear_check.eq_of_bits linear_zero byte.toNat_lt (by decide)

/-- A position on the tape does not change the sum of the four bits. -/
theorem check_position {position : Nat} (h : position < 2 ^ 15) :
    check (shift^[64] (UInt64.ofNat position)) = 0 := by
  have hlinear : Linear (check ∘ shift^[64]) := linear_check.comp (linear_shift.iterate 64)
  -- Only the fifteen bits of positions are evaluated.
  exact hlinear.eq_of_bits linear_zero h (by decide +kernel)

/-- The digest of a position on the tape is not a byte: the seed makes the sum of the four
bits odd. -/
theorem extendNat_seed_ne_byte {position : Nat} (h : position < 2 ^ 15) (byte : UInt8) :
    extendNat seed position ≠ byte.toUInt64 := by
  intro heq
  have hseed : check (shift^[64] seed) = 1 := by decide +kernel
  have hcheck : check (extendNat seed position) = 1 := by
    rw [extendNat, extendWord_eq, linear_shift.iterate 64, linear_check, hseed, check_position h,
      UInt64.xor_zero]
  rw [heq, check_byte] at hcheck
  exact absurd hcheck (by decide)

/-- A cell of the tape that is not zero contributes something. -/
theorem cell_ne_zero {position : Nat} (h : position < 2 ^ 15) {value : UInt8} (hvalue : value ≠ 0) :
    cell position value ≠ 0 := by
  rw [cell, if_neg hvalue, extendByte_eq]
  intro hzero
  rw [← (linear_shift.iterate 8).map_zero, (bijective_shift_iterate 8).injective.eq_iff,
    UInt64.xor_eq_zero_iff] at hzero
  exact extendNat_seed_ne_byte h value hzero

/-- Different values of a cell of the tape contribute differently. -/
theorem injective_cell {position : Nat} (h : position < 2 ^ 15) :
    Function.Injective (cell position) := by
  intro v w hvw
  by_cases hv : v = 0
  · by_contra hne
    rw [hv, cell_zero] at hvw
    exact cell_ne_zero h (fun hw => hne (hv.trans hw.symm)) hvw.symm
  · by_cases hw : w = 0
    · rw [hw, cell_zero] at hvw
      exact absurd hvw (cell_ne_zero h hv)
    · rwa [cell, cell, if_neg hv, if_neg hw, extendByte_right_inj] at hvw

end Cell

end Digest

namespace State

/-- The state is one of a machine with a tape of the default length and positions and
budgets of sixty-four bits. -/
structure OnTape (s : State) : Prop where
  /-- The position is a word. -/
  pc : s.pc < 2 ^ 64
  /-- The pointer is on the tape. -/
  pointer : s.pointer < defaultTapeLength
  /-- A finite budget is a word. -/
  reads : ∀ n, s.readsLeft = some n → n < 2 ^ 64
  /-- No cell is set beyond the tape. -/
  cells : ∀ p, defaultTapeLength ≤ p → s.cell p = 0

/-- The states differ in one thing. -/
inductive Neighbours (s t : State) : Prop
  /-- In the position of the next instruction. -/
  | pc (hpc : s.pc ≠ t.pc) (hpointer : s.pointer = t.pointer) (hreads : s.readsLeft = t.readsLeft)
      (hcells : ∀ p, s.cell p = t.cell p)
  /-- In the position of the current cell. -/
  | pointer (hpc : s.pc = t.pc) (hpointer : s.pointer ≠ t.pointer)
      (hreads : s.readsLeft = t.readsLeft) (hcells : ∀ p, s.cell p = t.cell p)
  /-- In the number of reads left, which is finite in both. -/
  | reads {m n : Nat} (hpc : s.pc = t.pc) (hpointer : s.pointer = t.pointer)
      (hs : s.readsLeft = some m) (ht : t.readsLeft = some n) (hne : m ≠ n)
      (hcells : ∀ p, s.cell p = t.cell p)
  /-- In the value of one cell. -/
  | cell (position : Nat) (hpc : s.pc = t.pc) (hpointer : s.pointer = t.pointer)
      (hreads : s.readsLeft = t.readsLeft) (hcell : s.cell position ≠ t.cell position)
      (hcells : ∀ p, p ≠ position → s.cell p = t.cell p)

variable {s t : State}

section OnTape

/-- The initial state is on the tape. -/
theorem onTape_initial {n : Nat} (hn : n < 2 ^ 64) : (initial (some n)).OnTape where
  pc := Nat.two_pow_pos 64
  pointer := Nat.lt_of_sub_eq_succ rfl
  reads m hm := by
    cases hm
    exact hn
  cells p _ := by simp [initial, ofParts, State.cell]

/-- Jumps to words stay on the tape. -/
theorem OnTape.jump (h : s.OnTape) {pc : Nat} (hpc : pc < 2 ^ 64) : (s.jump pc).OnTape :=
  ⟨hpc, h.pointer, h.reads, h.cells⟩

/-- Moves to cells of the tape stay on the tape. -/
theorem OnTape.move (h : s.OnTape) {pc pointer : Nat} (hpc : pc < 2 ^ 64)
    (hpointer : pointer < defaultTapeLength) : (s.move pc pointer).OnTape :=
  ⟨hpc, hpointer, h.reads, h.cells⟩

/-- Writes stay on the tape. -/
theorem OnTape.write (h : s.OnTape) {pc : Nat} (hpc : pc < 2 ^ 64) (value : UInt8) :
    (s.write pc value).OnTape := by
  refine ⟨hpc, h.pointer, h.reads, fun p hp => ?_⟩
  have hpointer := h.pointer
  rw [State.write, cell_store, if_neg (by omega)]
  exact h.cells p hp

end OnTape

/-- Canonical states with the same cells have the same digest. -/
theorem Canonical.digest_eq (hs : s.Canonical) (ht : t.Canonical)
    (hcells : ∀ p, s.cell p = t.cell p) : s.digest = t.digest := by
  rw [hs.digest, ht.digest, hs.cells_eq ht hcells]

/-- Canonical states that differ in one cell of the tape have different digests. -/
theorem Canonical.digest_ne (hs : s.Canonical) (ht : t.Canonical) {position : Nat}
    (hposition : position < 2 ^ 15) (hcell : s.cell position ≠ t.cell position)
    (hcells : ∀ p, p ≠ position → s.cell p = t.cell p) : s.digest ≠ t.digest := by
  have herase : s.cells.erase position = t.cells.erase position := by
    refine Std.ExtTreeMap.ext_getElem? fun {p} => ?_
    rw [Std.ExtTreeMap.getElem?_erase, Std.ExtTreeMap.getElem?_erase]
    split
    · rfl
    · rename_i hp
      have hne : p ≠ position := fun heq => hp (heq ▸ Std.compare_self)
      rw [hs.getElem?_eq, ht.getElem?_eq, hcells p hne]
  intro hdigest
  rw [hs.digest, ht.digest, Digest.memory_erase s.cells position,
    Digest.memory_erase t.cells position, herase, UInt64.add_left_inj] at hdigest
  exact hcell (Digest.injective_cell hposition hdigest)

section Fingerprint

variable {pc pc' pointer pointer' m n : Nat} {readsLeft : Option Nat} {digest digest' : UInt64}

/-- Fingerprints tell positions apart. -/
theorem fingerprintOf_pc_inj (hpc : pc < 2 ^ 64) (hpc' : pc' < 2 ^ 64) :
    fingerprintOf pc pointer readsLeft digest = fingerprintOf pc' pointer readsLeft digest ↔
      pc = pc' := by
  cases readsLeft <;> simp [fingerprintOf, Digest.extendNat_right_inj hpc hpc']

/-- Fingerprints tell pointers apart. -/
theorem fingerprintOf_pointer_inj (hp : pointer < 2 ^ 64) (hp' : pointer' < 2 ^ 64) :
    fingerprintOf pc pointer readsLeft digest = fingerprintOf pc pointer' readsLeft digest ↔
      pointer = pointer' := by
  cases readsLeft <;> simp [fingerprintOf, Digest.extendNat_right_inj hp hp']

/-- Fingerprints tell finite budgets apart. -/
theorem fingerprintOf_reads_inj (hm : m < 2 ^ 64) (hn : n < 2 ^ 64) :
    fingerprintOf pc pointer (some m) digest = fingerprintOf pc pointer (some n) digest ↔
      m = n := by
  simp [fingerprintOf, Digest.extendNat_right_inj hm hn]

/-- Fingerprints tell digests apart. -/
theorem fingerprintOf_digest_inj :
    fingerprintOf pc pointer readsLeft digest = fingerprintOf pc pointer readsLeft digest' ↔
      digest = digest' := by
  simp [fingerprintOf]

end Fingerprint

/-- Two states on the tape that the operations build and that differ in one thing, be it the
position, the pointer, the finite budget or one cell, have different fingerprints. -/
theorem fingerprint_ne_of_neighbours (hs : s.Built) (ht : t.Built) (hs' : s.OnTape)
    (ht' : t.OnTape) (h : Neighbours s t) : s.fingerprint ≠ t.fingerprint := by
  have hlength : defaultTapeLength < 2 ^ 15 := by decide
  have hs := hs.canonical
  have ht := ht.canonical
  rw [hs.fingerprint, ht.fingerprint]
  cases h with
  | pc hpc hpointer hreads hcells =>
    rw [hpointer, hreads, hs.digest_eq ht hcells, ne_eq, fingerprintOf_pc_inj hs'.pc ht'.pc]
    exact hpc
  | pointer hpc hpointer hreads hcells =>
    have hword := hs'.pointer
    have hword' := ht'.pointer
    rw [hpc, hreads, hs.digest_eq ht hcells, ne_eq,
      fingerprintOf_pointer_inj (by omega) (by omega)]
    exact hpointer
  | reads hpc hpointer hm hn hne hcells =>
    rw [hpc, hpointer, hm, hn, hs.digest_eq ht hcells, ne_eq,
      fingerprintOf_reads_inj (hs'.reads _ hm) (ht'.reads _ hn)]
    exact hne
  | cell position hpc hpointer hreads hcell hcells =>
    rw [hpc, hpointer, hreads, ne_eq, fingerprintOf_digest_inj]
    refine hs.digest_ne ht ?_ hcell hcells
    -- Beyond the tape both cells are zero and do not differ.
    by_contra hbeyond
    exact hcell ((hs'.cells _ (by omega)).trans (ht'.cells _ (by omega)).symm)

/-- A state and one with another value in its current cell are neighbours. -/
theorem neighbours_write {value : UInt8} (h : s.current ≠ value) :
    Neighbours s (s.write s.pc value) := by
  refine .cell s.pointer rfl rfl rfl ?_ fun p hp => ?_
  · rw [State.write, cell_store, if_pos rfl]
    exact h
  · rw [State.write, cell_store, if_neg hp]

/-- The last cell of the tape is current, and the first one has been written to. -/
def lastCell (reads : Nat) : State := ((initial (some reads)).write 1 4).move 2 29999

/-- At the end of the tape, one greater position or pointer, one read more and a value in a
cell that was zero each give another fingerprint. -/
theorem lastCell_neighbours :
    (lastCell 1).Built ∧ (lastCell 1).OnTape ∧
      (lastCell 1).fingerprint ≠ ((lastCell 1).jump (2 ^ 64 - 1)).fingerprint ∧
      (lastCell 1).fingerprint ≠ ((lastCell 1).move 2 0).fingerprint ∧
      (lastCell 1).fingerprint ≠ (lastCell 2).fingerprint ∧
      (lastCell 1).fingerprint ≠ ((lastCell 1).write 2 201).fingerprint := by
  have hbuilt (n : Nat) : (lastCell n).Built := ((Built.initial _).write _ _).move _ _
  have htape {n : Nat} (hn : n < 2 ^ 64) : (lastCell n).OnTape :=
    ((onTape_initial hn).write (by decide) _).move (by decide) (by decide)
  have hcells (n p : Nat) : (lastCell n).cell p = if p = 0 then 4 else 0 := by
    change ((initial (some n)).store 1 4 (some n)).cell p = _
    rw [cell_store]
    simp [initial, ofParts, State.cell]
  have hone := htape (n := 1) (by decide)
  refine ⟨hbuilt 1, hone, ?_, ?_, ?_, ?_⟩
  · exact fingerprint_ne_of_neighbours (hbuilt 1) ((hbuilt 1).jump _) hone (hone.jump (by decide))
      (.pc (by decide) rfl rfl fun _ => rfl)
  · exact fingerprint_ne_of_neighbours (hbuilt 1) ((hbuilt 1).move _ _) hone
      (hone.move (by decide) (by decide)) (.pointer rfl (by decide) rfl fun _ => rfl)
  · exact fingerprint_ne_of_neighbours (hbuilt 1) (hbuilt 2) hone (htape (by decide))
      (.reads rfl rfl rfl rfl (by decide) fun p => (hcells 1 p).trans (hcells 2 p).symm)
  · have hvalue : (lastCell 1).current ≠ 201 := by
      rw [State.current, hcells]
      decide
    exact fingerprint_ne_of_neighbours (hbuilt 1) ((hbuilt 1).write _ _) hone
      (hone.write (by decide) _) (neighbours_write hvalue)

end State

end TapeReach
