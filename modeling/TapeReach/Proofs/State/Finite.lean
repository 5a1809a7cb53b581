import Mathlib.Data.Set.Card
import Mathlib.Data.Fintype.BigOperators
import Mathlib.Data.FinEnum
import TapeReach.Proofs.State.Transition

/-!
# The reachable states are finitely many

A confined state is determined by its position, its pointer, the reads left
and the values of the cells on the tape. Positions come from a finite set,
the pointer and the reads left are bounded, and there are finitely many
contents of the tape. So there are at most as many confined states as the
bits set aside for them can tell apart.
-/

namespace TapeReach.Program

/-- The positions that a run can be at: those within the program, its end and the
targets of its jumps. -/
def positions (program : Program) : Finset Nat :=
  Finset.range (program.size + 1) ∪ (program.jumps.toList.map Prod.snd).toFinset

/-- What tells confined states apart. -/
def code (s : State) : Nat × Nat × Nat × (Fin defaultTapeLength → UInt8) :=
  (s.pc, s.pointer, s.readsLeft.getD 0, fun p => s.cell p)

/-- The codes that confined states can have. -/
def codes (program : Program) (io : InputModel) :
    Finset (Nat × Nat × Nat × (Fin defaultTapeLength → UInt8)) :=
  program.positions ×ˢ Finset.range defaultTapeLength ×ˢ
    Finset.range (io.maxReads.getD 0 + 1) ×ˢ Finset.univ

variable {program : Program} {io : InputModel} {s t : State}

/-- The position of a confined state is one of the positions of the program. -/
theorem Confined.pc_mem (h : Confined program io s) : s.pc ∈ program.positions := by
  rcases h.pc with hle | ⟨p, hp⟩
  · exact Finset.mem_union_left _ (Finset.mem_range.mpr (by omega))
  · refine Finset.mem_union_right _ (List.mem_toFinset.mpr (List.mem_map.mpr ?_))
    exact ⟨(p, s.pc), Std.ExtTreeMap.mem_toList_iff_getElem?_eq_some.mpr hp, rfl⟩

/-- Confined states have one of the codes. -/
theorem Confined.code_mem (h : Confined program io s) : code s ∈ program.codes io := by
  have hreads : s.readsLeft.getD 0 ≤ io.maxReads.getD 0 := by
    obtain ⟨k, hk⟩ := h.reads
    rw [hk]
    cases io.maxReads with
    | none => exact Nat.le_refl _
    | some n => exact Nat.sub_le n k
  simp only [codes, code, Finset.mem_product, Finset.mem_range, Finset.mem_univ, and_true]
  exact ⟨h.pc_mem, h.pointer, by omega⟩

/-- Confined states with one code are equal. -/
theorem Confined.eq_of_code (hs : Confined program io s) (ht : Confined program io t)
    (h : code s = code t) : s = t := by
  simp only [code, Prod.mk.injEq] at h
  obtain ⟨hpc, hpointer, hreads, hcells⟩ := h
  refine hs.canonical.ext ht.canonical hpc hpointer ?_ fun p => ?_
  · obtain ⟨k, hk⟩ := hs.reads
    obtain ⟨l, hl⟩ := ht.reads
    rw [hk, hl] at hreads ⊢
    cases hm : io.maxReads with
    | none => rfl
    | some n =>
      rw [hm] at hreads
      exact congrArg some hreads
  · by_cases hp : p < defaultTapeLength
    · exact congrFun hcells ⟨p, hp⟩
    · rw [hs.cells p (by omega), ht.cells p (by omega)]

/-- The confined states are finitely many. -/
theorem confined_finite (program : Program) (io : InputModel) :
    {s | Confined program io s}.Finite :=
  Set.Finite.of_injOn (t := (program.codes io : Set _)) (fun _ hs => hs.code_mem)
    (fun _ hs _ ht h => hs.eq_of_code ht h) (Finset.finite_toSet _)

/-- There are no more positions than instructions, jumps and the end. -/
theorem card_positions_le (program : Program) :
    program.positions.card ≤ program.size + 1 + program.jumps.size := by
  refine (Finset.card_union_le _ _).trans ?_
  rw [Finset.card_range]
  refine Nat.add_le_add_left ((List.toFinset_card_le _).trans ?_) _
  rw [List.length_map, Std.ExtTreeMap.length_toList]

/-- A tape has eight bits for each cell. -/
theorem card_tapes (length : Nat) : Fintype.card (Fin length → UInt8) = 2 ^ (8 * length) := by
  have hbyte : Fintype.card UInt8 = 2 ^ 8 := FinEnum.card_eq_fintypeCard.symm
  rw [Fintype.card_fun, Fintype.card_fin, hbyte, pow_mul]

/-- The codes can be told apart by the bits set aside for the states. -/
theorem card_codes_le (program : Program) (io : InputModel) :
    (program.codes io).card ≤ 2 ^ program.stateBits io := by
  have hpositions : program.positions.card ≤
      2 ^ (Nat.log2 (program.size + 1 + program.jumps.size) + 1) :=
    (card_positions_le program).trans Nat.lt_log2_self.le
  have hlength : defaultTapeLength ≤ 2 ^ 15 := by decide
  have hreads : io.maxReads.getD 0 + 1 ≤ 2 ^ (Nat.log2 (io.maxReads.getD 0 + 1) + 1) :=
    Nat.lt_log2_self.le
  simp only [codes, Finset.card_product, Finset.card_range, Finset.card_univ, card_tapes, stateBits]
  generalize defaultTapeLength = length at hlength ⊢
  calc program.positions.card * (length * ((io.maxReads.getD 0 + 1) * 2 ^ (8 * length)))
      ≤ 2 ^ (Nat.log2 (program.size + 1 + program.jumps.size) + 1) *
        (2 ^ 15 * (2 ^ (Nat.log2 (io.maxReads.getD 0 + 1) + 1) * 2 ^ (8 * length))) := by
        gcongr
    _ = 2 ^ (Nat.log2 (program.size + 1 + program.jumps.size) + 1 + 15 + 8 * length +
          (Nat.log2 (io.maxReads.getD 0 + 1) + 1)) := by
        rw [← pow_add, ← pow_add, ← pow_add]
        congr 1
        omega

/-- The confined states can be told apart by the bits set aside for them. -/
theorem card_confined_le (program : Program) (io : InputModel) :
    (confined_finite program io).toFinset.card ≤ 2 ^ program.stateBits io := by
  refine (Finset.card_le_card_of_injOn code ?_ ?_).trans (card_codes_le program io)
  · intro s hs
    exact Confined.code_mem (by simpa using hs)
  · intro s hs t ht h
    exact Confined.eq_of_code (by simpa using hs) (by simpa using ht) h

end TapeReach.Program
