import Mathlib.Data.FinEnum
import Mathlib.Data.LawfulXor.Basic
import Mathlib.Data.List.Basic
import Mathlib.Data.Nat.Bitwise
import Mathlib.Logic.Function.Iterate
import TapeReach.State.Digest

/-!
# Digests are remainders

A word stands for a polynomial over the two-element field, and exclusive or
for the sum of polynomials. A shift is linear in this sum and has no kernel,
since the seed has the bit that a shift leaves free. So the table of bytes,
which holds sums of powers, agrees with eight shifts of a byte, and a digest
that is extended by a byte or by a word is the remainder that eight or
sixty-four shifts of the sum leave. Extending is therefore a bijection of
words, both in the digest and in the word it is extended by.
-/

namespace TapeReach.Digest

/-- The map sends the sum of two polynomials to the sum of their images. -/
def Linear (f : UInt64 → UInt64) : Prop := ∀ a b, f (a ^^^ b) = f a ^^^ f b

section Linear

variable {f g : UInt64 → UInt64}

/-- Linear maps keep zero. -/
theorem Linear.map_zero (hf : Linear f) : f 0 = 0 := by
  have h := hf 0 0
  rwa [UInt64.xor_self, UInt64.xor_self] at h

/-- A linear map after a linear map is linear. -/
theorem Linear.comp (hg : Linear g) (hf : Linear f) : Linear (g ∘ f) := by
  intro a b
  rw [Function.comp_apply, hf, hg, Function.comp_apply, Function.comp_apply]

/-- The sum of linear maps is linear. -/
theorem Linear.sum (hf : Linear f) (hg : Linear g) : Linear fun t => f t ^^^ g t := by
  intro a b
  dsimp only
  rw [hf, hg]
  ac_rfl

/-- Linear maps may be repeated. -/
theorem Linear.iterate (hf : Linear f) (n : Nat) : Linear f^[n] := by
  induction n with
  | zero => exact fun _ _ => rfl
  | succ n ih =>
    rw [Function.iterate_succ]
    exact ih.comp hf

/-- A linear map without a kernel tells all words apart. -/
theorem Linear.injective (hf : Linear f) (hkernel : ∀ t, f t = 0 → t = 0) :
    Function.Injective f := by
  intro a b hab
  rw [← UInt64.xor_eq_zero_iff] at hab ⊢
  exact hkernel _ ((hf a b).trans hab)

/-- One more bit of a number is one more summand. -/
theorem mod_two_pow_succ_xor (n w : Nat) :
    n % 2 ^ (w + 1) = n % 2 ^ w ^^^ if n.testBit w then 2 ^ w else 0 := by
  refine Nat.eq_of_testBit_eq fun i => ?_
  have hbit : (if n.testBit w then 2 ^ w else 0).testBit i = (decide (w = i) && n.testBit w) := by
    split <;> simp_all [Nat.testBit_two_pow]
  rw [Nat.testBit_xor, Nat.testBit_mod_two_pow, Nat.testBit_mod_two_pow, hbit]
  grind

/-- A linear map is the sum of its values at the bits of its argument. -/
theorem Linear.eq_foldl_bits (hf : Linear f) (n w : Nat) :
    f (UInt64.ofNat (n % 2 ^ w)) =
      (List.range w).foldl
        (fun r k => if n.testBit k then r ^^^ f (UInt64.ofNat (2 ^ k)) else r) 0 := by
  induction w with
  | zero =>
    rw [Nat.pow_zero, Nat.mod_one]
    exact hf.map_zero
  | succ w ih =>
    rw [List.range_succ, List.foldl_append, ← ih, mod_two_pow_succ_xor, UInt64.ofNat_xor, hf,
      List.foldl_cons, List.foldl_nil]
    split
    · rfl
    · have hzero : f (UInt64.ofNat 0) = 0 := hf.map_zero
      rw [hzero, UInt64.xor_zero]

/-- Linear maps that agree at the lowest bits agree at all numbers of these bits. -/
theorem Linear.eq_of_bits (hf : Linear f) (hg : Linear g) {n w : Nat} (hn : n < 2 ^ w)
    (hbits : ∀ k < w, f (UInt64.ofNat (2 ^ k)) = g (UInt64.ofNat (2 ^ k))) :
    f (UInt64.ofNat n) = g (UInt64.ofNat n) := by
  rw [← Nat.mod_eq_of_lt hn, hf.eq_foldl_bits, hg.eq_foldl_bits]
  refine List.foldl_ext _ _ _ fun r k hk => ?_
  rw [hbits k (List.mem_range.mp hk)]

end Linear

section Shift

/-- A word is tested for its lowest bit. -/
theorem and_one_eq_zero_iff (t : UInt64) : t &&& 1 = 0 ↔ t.toNat % 2 = 0 := by
  rw [← UInt64.toNat_inj, UInt64.toNat_and]
  exact Nat.and_one_is_mod _ ▸ Iff.rfl

/-- Moving the bits down is linear. -/
theorem linear_shiftRight (k : UInt64) : Linear (· >>> k) := fun _ _ => UInt64.shiftRight_xor

/-- What the lowest bit leaves behind is linear. -/
theorem linear_lowest : Linear fun t => if t &&& 1 = 0 then 0 else seed := by
  intro a b
  have hsum : (a ^^^ b).toNat % 2 = (a.toNat + b.toNat) % 2 := by
    rw [UInt64.toNat_xor]
    exact Nat.xor_mod_two_eq
  simp only [and_one_eq_zero_iff, hsum, Nat.add_mod a.toNat]
  rcases Nat.mod_two_eq_zero_or_one a.toNat with ha | ha <;>
    rcases Nat.mod_two_eq_zero_or_one b.toNat with hb | hb <;>
      simp [ha, hb]

/-- Shifts are linear. -/
theorem linear_shift : Linear shift := (linear_shiftRight 1).sum linear_lowest

/-- A shift halves an even word. -/
theorem toNat_shift_of_even {t : UInt64} (h : t.toNat % 2 = 0) :
    (shift t).toNat = t.toNat / 2 := by
  rw [shift, if_pos ((and_one_eq_zero_iff t).mpr h), UInt64.xor_zero, UInt64.toNat_shiftRight]
  exact Nat.shiftRight_eq_div_pow _ 1

/-- Shifts of a multiple of a power of two divide it by that power. -/
theorem toNat_shift_iterate {k m : Nat} {t : UInt64} (h : t.toNat = 2 ^ k * m) :
    (shift^[k] t).toNat = m := by
  induction k generalizing t with
  | zero => rw [Function.iterate_zero, id_eq, h, Nat.pow_zero, Nat.one_mul]
  | succ k ih =>
    rw [Nat.pow_succ, Nat.mul_assoc, Nat.mul_left_comm] at h
    rw [Function.iterate_succ_apply]
    refine ih ?_
    rw [toNat_shift_of_even (by omega)]
    omega

/-- Only zero is shifted to zero: the seed has the highest bit, which the other bits
cannot cancel. -/
theorem eq_zero_of_shift {t : UInt64} (h : shift t = 0) : t = 0 := by
  have hlt := t.toNat_lt
  by_cases heven : t.toNat % 2 = 0
  · have hhalf : (0 : UInt64).toNat = t.toNat / 2 := h ▸ toNat_shift_of_even heven
    rw [UInt64.toNat_zero] at hhalf
    rw [← UInt64.toNat_inj, UInt64.toNat_zero]
    omega
  · rw [shift, if_neg (mt (and_one_eq_zero_iff t).mp heven), UInt64.xor_eq_zero_iff,
      ← UInt64.toNat_inj, UInt64.toNat_shiftRight] at h
    have hhalf : t.toNat / 2 = seed.toNat := h
    have hseed : 2 ^ 63 ≤ seed.toNat := by decide
    omega

/-- Any number of shifts is a bijection of words. -/
theorem bijective_shift_iterate (n : Nat) : Function.Bijective shift^[n] := by
  have hinjective := linear_shift.injective fun _ => eq_zero_of_shift
  exact hinjective.bijective_of_finite.iterate n

end Shift

section Table

/-- A later power is an earlier one shifted. -/
theorem power_add (m n : Nat) : power (m + n) = shift^[n] (power m) := by
  induction n with
  | zero => rfl
  | succ n ih => rw [Function.iterate_succ_apply', ← ih, ← Nat.add_assoc, power]

/-- The first powers are the bits of a word, the highest first. -/
theorem power_eq_bit {k : Nat} (h : k ≤ 63) : power (63 - k) = UInt64.ofNat (2 ^ k) := by
  have hpow : 2 ^ k < 2 ^ 64 := Nat.pow_lt_pow_right (by omega) (by omega)
  have hfirst : (power 0).toNat = 2 ^ (63 - k) * 2 ^ k := by
    rw [← Nat.pow_add, Nat.sub_add_cancel h]
    rfl
  rw [← UInt64.toNat_inj, UInt64.toNat_ofNat_of_lt' hpow, ← Nat.zero_add (63 - k), power_add]
  exact toNat_shift_iterate hfirst

/-- The remainder of a byte is what eight shifts leave of it. -/
theorem byteRemainder_eq (byte : UInt8) :
    byteRemainder byte.toNat = shift^[8] byte.toUInt64 := by
  have hbits := (linear_shift.iterate 8).eq_foldl_bits byte.toNat 8
  rw [Nat.mod_eq_of_lt byte.toNat_lt, UInt64.ofNat_uInt8ToNat] at hbits
  rw [hbits, byteRemainder]
  refine List.foldl_ext _ _ _ fun r k hk => ?_
  have hk : k < 8 := List.mem_range.mp hk
  have hpower : power (71 - k) = shift^[8] (UInt64.ofNat (2 ^ k)) := by
    rw [← power_eq_bit (by omega), ← power_add]
    congr 1
    omega
  rw [hpower]

/-- Eight shifts move the upper bits down and replace the lowest byte by its remainder. -/
theorem shift_iterate_eight (t : UInt64) :
    shift^[8] t = (t >>> 8) ^^^ shift^[8] t.toUInt8.toUInt64 := by
  have hlow : t.toUInt8.toUInt64.toNat = t.toNat % 2 ^ 8 := by
    rw [UInt8.toNat_toUInt64, UInt64.toNat_toUInt8]
  have hhigh : (t ^^^ t.toUInt8.toUInt64).toNat = 2 ^ 8 * (t.toNat / 2 ^ 8) := by
    have hdiv : (t.toNat ^^^ t.toNat % 2 ^ 8) / 2 ^ 8 = t.toNat / 2 ^ 8 := by
      rw [Nat.xor_div_two_pow, Nat.mod_div_self, Nat.xor_zero]
    have hmod : (t.toNat ^^^ t.toNat % 2 ^ 8) % 2 ^ 8 = 0 := by
      rw [Nat.xor_mod_two_pow, Nat.mod_mod, Nat.xor_self]
    rw [UInt64.toNat_xor, hlow]
    omega
  have hshift : shift^[8] (t ^^^ t.toUInt8.toUInt64) = t >>> 8 := by
    rw [← UInt64.toNat_inj, toNat_shift_iterate hhigh, UInt64.toNat_shiftRight]
    exact (Nat.shiftRight_eq_div_pow _ 8).symm
  rw [← hshift, ← linear_shift.iterate 8, xor_cancel_right]

/-- Extending by a byte takes the remainder of the lowest byte of the sum. -/
theorem extendByte_eq_remainder (digest : UInt64) (byte : UInt8) :
    extendByte digest byte =
      (digest >>> 8) ^^^ byteRemainder (byte ^^^ digest.toUInt8).toNat := by
  have hentry : ∀ i : Fin 256, table.get i = byteRemainder i.val :=
    fun i => Vector.getElem_ofFn i.isLt
  rw [extendByte, hentry]

/-- Extending by a byte is eight shifts of the sum. -/
theorem extendByte_eq (digest : UInt64) (byte : UInt8) :
    extendByte digest byte = shift^[8] (digest ^^^ byte.toUInt64) := by
  have hbyte : byte.toUInt64 >>> 8 = 0 := by
    rw [← UInt64.toNat_inj, UInt64.toNat_shiftRight, UInt8.toNat_toUInt64]
    exact Nat.shiftRight_eq_zero _ _ byte.toNat_lt
  rw [extendByte_eq_remainder, byteRemainder_eq, shift_iterate_eight (digest ^^^ _),
    UInt64.shiftRight_xor, hbyte, UInt64.xor_zero, UInt64.toUInt8_xor, UInt8.toUInt8_toUInt64,
    UInt8.xor_comm]

end Table

section Word

/-- The bytes of a word that are left after the lowest `k`. -/
def upper (word : UInt64) (k : Nat) : UInt64 := .ofBitVec (word.toBitVec >>> (8 * k))

/-- A byte of a word is the lowest of those that are left. -/
theorem shiftRight_eq_upper (word : UInt64) {k : Nat} (hk : k < 8) :
    word >>> UInt64.ofNat (8 * k) = upper word k :=
  (UInt64.ofBitVec_shiftRight _ _ (by omega)).symm

/-- One byte less is left. -/
theorem upper_succ (word : UInt64) (k : Nat) : upper word k >>> 8 = upper word (k + 1) := by
  rw [upper, upper, Nat.mul_succ, BitVec.shiftRight_add]
  exact (UInt64.ofBitVec_shiftRight _ 8 (by decide)).symm

/-- Nothing is left of a word after eight bytes. -/
theorem upper_eight (word : UInt64) : upper word 8 = 0 :=
  congrArg UInt64.ofBitVec (BitVec.ushiftRight_eq_zero (Nat.le_refl 64))

/-- Eight shifts of a sum extend the digest by the lowest byte of the word and move its
other bytes down. -/
theorem shift_iterate_sum (digest word : UInt64) :
    shift^[8] (digest ^^^ word) = extendByte digest word.toUInt8 ^^^ (word >>> 8) := by
  rw [extendByte_eq, linear_shift.iterate 8, linear_shift.iterate 8, shift_iterate_eight word]
  ac_rfl

/-- Eight shifts for each of the lowest `k` bytes of a word extend the digest by these bytes
and leave the others. -/
theorem shift_iterate_bytes (digest word : UInt64) {k : Nat} (hk : k ≤ 8) :
    shift^[8 * k] (digest ^^^ word) =
      extendBytes digest ((List.range k).map fun i => (word >>> UInt64.ofNat (8 * i)).toUInt8) ^^^
        upper word k := by
  induction k with
  | zero => rfl
  | succ k ih =>
    rw [Nat.mul_succ, Nat.add_comm, Function.iterate_add_apply, ih (by omega), shift_iterate_sum,
      upper_succ, List.range_succ, List.map_append, extendBytes, extendBytes, List.foldl_append,
      List.map_singleton, List.foldl_cons, List.foldl_nil, shiftRight_eq_upper word (by omega)]

/-- Extending by a word is sixty-four shifts of the sum. -/
theorem extendWord_eq (digest word : UInt64) :
    extendWord digest word = shift^[64] (digest ^^^ word) := by
  have h := shift_iterate_bytes digest word (Nat.le_refl 8)
  rw [upper_eight, UInt64.xor_zero] at h
  exact h.symm

end Word

/-- The digest is a remainder. Extending it by a byte with the table is eight single shifts
of the sum of digest and byte; so extending it by a word is sixty-four shifts of the sum of
digest and word, and a bijection both of digests and of words. -/
theorem extend_eq_division :
    (∀ (digest : UInt64) (byte : UInt8),
      extendByte digest byte = shift^[8] (digest ^^^ byte.toUInt64)) ∧
    (∀ digest word : UInt64, extendWord digest word = shift^[64] (digest ^^^ word)) ∧
    (∀ word : UInt64, Function.Bijective fun digest => extendWord digest word) ∧
    ∀ digest : UInt64, Function.Bijective (extendWord digest) := by
  refine ⟨extendByte_eq, extendWord_eq, fun word => ?_, fun digest => ?_⟩
  · simp only [extendWord_eq]
    exact (bijective_shift_iterate 64).comp (xor_left_involutive word).bijective
  · rw [funext (extendWord_eq digest)]
    exact (bijective_shift_iterate 64).comp (xor_right_involutive digest).bijective

end TapeReach.Digest
