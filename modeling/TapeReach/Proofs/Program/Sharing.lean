import Std.Data.String.ToNat
import TapeReach.Proofs.Program.Propositions
import TapeReach.Proofs.Program.RoundTrip
import TapeReach.Proofs.State.Built

/-!
# Names that share a number

There are as many numbers for names as there are words of 32 bits, and behind
the greatest number the numbers begin anew. So the names of a program have
numbers of their own exactly if there are no more of them than words. Where two
names share a number, the target of one holds also where only the other is
attached. Such a program can be read from a text: here a loop is not entered,
the first name stands in front of it and all others stand inside, and the name
that comes behind the greatest number has the number of the first one.
-/

namespace TapeReach

namespace Program

variable {program : Program} {name other : String} {k l : Nat}

/-- Names have one number when their places differ by a multiple of the number of words. -/
theorem numberOf_eq_numberOf_iff (hname : program.propositions[k]? = some name)
    (hother : program.propositions[l]? = some other) :
    program.numberOf name = program.numberOf other ↔ k % UInt32.size = l % UInt32.size := by
  rw [numberOf_eq hname, numberOf_eq hother, ← UInt32.toNat_inj, Nat.toUInt32_eq,
    Nat.toUInt32_eq, UInt32.toNat_ofNat', UInt32.toNat_ofNat']

/-- The names have numbers of their own exactly if there are no more of them than words. -/
theorem injOn_numberOf_iff (program : Program) :
    Set.InjOn program.numberOf {name | name ∈ program.propositions} ↔
      program.propositions.length ≤ UInt32.size := by
  constructor
  · intro hinj
    by_contra hmany
    have hlast : UInt32.size < program.propositions.length := Nat.lt_of_not_le hmany
    have hfirst : 0 < program.propositions.length := Nat.zero_lt_of_lt hlast
    have hshared := (numberOf_eq_numberOf_iff (List.getElem?_eq_getElem hfirst)
      (List.getElem?_eq_getElem hlast)).mpr (Nat.mod_self _).symm
    have heq := hinj (List.getElem_mem hfirst) (List.getElem_mem hlast) hshared
    have hnodup : program.propositions.Nodup := nodup_eraseDups _
    exact absurd (hnodup.getElem_inj_iff.mp heq) (by decide)
  · exact fun hfew name hname other hother => (numberOf_inj hfew hname hother).mp

end Program

/-- A loop that is not entered, with the position that the jump past it leads to. -/
def bypass (landing : Nat) (labels : List (Nat × List String)) : Program :=
  .ofTables [.jumpIfZero, .jumpIfNonZero] [(0, landing), (1, 1)] labels

/-- The first name in front of a loop that is not entered, and as many others inside. -/
def crowded (count : Nat) : Program :=
  bypass 2 [(0, [Nat.repr 0]), (1, (List.range' 1 count).map Nat.repr)]

variable {count : Nat}

/-- A list without repeats has none to lose. -/
theorem eraseDups_eq_self {α : Type} [BEq α] [LawfulBEq α] {xs : List α} (h : xs.Nodup) :
    xs.eraseDups = xs := by
  induction xs using List.reverseRecOn with
  | nil => rfl
  | append_singleton xs x ih =>
    obtain ⟨hxs, _, hdisjoint⟩ := List.nodup_append.mp h
    have hnot : x ∉ xs := fun hmem => hdisjoint x hmem x (List.mem_singleton_self x) rfl
    rw [eraseDups_concat, if_neg (by rwa [List.contains_iff_mem]), ih hxs]

/-- The names are the numbers from zero on, each written once. -/
theorem propositions_crowded (count : Nat) :
    (crowded count).propositions = (List.range (count + 1)).map Nat.repr := by
  have hnodup : ((List.range (count + 1)).map Nat.repr).Nodup :=
    (List.nodup_map_iff fun _ _ => Nat.repr_injective).mpr List.nodup_range
  rw [← eraseDups_eq_self hnodup, List.range_eq_range', List.range'_succ]
  change ([Nat.repr 0] ++ ((List.range' 1 count).map Nat.repr ++ [])).eraseDups = _
  rw [List.append_nil]
  rfl

/-- Each name stands at the place that it says. -/
theorem getElem?_propositions_crowded {k : Nat} (hk : k ≤ count) :
    (crowded count).propositions[k]? = some k.repr := by
  rw [propositions_crowded, List.getElem?_map, List.getElem?_range (by omega), Option.map_some]

/-- The entries stand in front of the loop and inside, and hold numbers. -/
theorem entry_crowded (hcount : 0 < count) {pc : Nat} {names : List String}
    (h : (crowded count).labels[pc]? = some names) :
    pc ≤ 1 ∧ names ≠ [] ∧ ∀ name ∈ names, ∃ k, name = Nat.repr k := by
  rcases List.mem_cons.mp (mem_of_getElem?_ofList h) with heq | hmem
  · cases heq
    refine ⟨Nat.zero_le 1, List.cons_ne_nil _ _, fun name hname => ?_⟩
    exact ⟨0, List.mem_singleton.mp hname⟩
  · cases List.mem_singleton.mp hmem
    refine ⟨Nat.le_refl 1, ?_, fun name hname => ?_⟩
    · rw [ne_eq, List.map_eq_nil_iff, List.range'_eq_nil_iff]
      exact Nat.ne_of_gt hcount
    · obtain ⟨k, _, rfl⟩ := List.mem_map.mp hname
      exact ⟨k, rfl⟩

/-- A number can be the name of a label. -/
theorem repr_isName (k : Nat) : k.repr ≠ "" ∧ '_' ∉ k.repr.toList := by
  have hdigits : k.repr.toList = Nat.toDigits 10 k := String.toList_ofList
  constructor
  · intro hempty
    rw [hempty] at hdigits
    exact Nat.toDigits_ne_nil hdigits.symm
  · rw [hdigits]
    exact Nat.underscore_not_in_toDigits

/-- A crowded program can be read from a text. -/
theorem exists_source_crowded (hcount : 0 < count) :
    ∃ source, Program.parse source = .ok (crowded count) := by
  -- Instructions and jumps are those of the loop without labels.
  have hparse : Program.ofChars "[]".toList = .ok (bypass 2 []) := by rfl
  obtain ⟨hgrammar, htables⟩ := Source.ofChars_eq_ok_iff.mp hparse
  have hloop := htables.wellFormed hgrammar
  have hwell : (crowded count).WellFormed := by
    refine ⟨hloop.brackets, hloop.jumps, fun pc names h => ?_, fun pc names h => ?_,
      fun pc names h name hname => ?_⟩
    · exact Nat.le_succ_of_le (entry_crowded hcount h).1
    · exact (entry_crowded hcount h).2.1
    · obtain ⟨k, rfl⟩ := (entry_crowded hcount h).2.2 name hname
      exact repr_isName k
  refine ⟨(crowded count).render true, ?_⟩
  rw [Program.parse, Program.render, String.toList_ofList]
  exact hwell.ofChars_render

/-- When the numbers begin anew, the target of the last name holds in front of the loop, where
it is not attached. -/
theorem exists_target_crowded (hcount : count % UInt32.size = 0) :
    ∃ target, (Labeling.ofProgram (crowded count)).target count.repr = .ok target ∧
      target.holdsAt 0 = true := by
  have hplace := getElem?_propositions_crowded (Nat.le_refl count)
  have hlabel := Program.mem_propositions_iff.mp (List.mem_of_getElem? hplace)
  obtain ⟨target, htarget⟩ := Labeling.exists_target hlabel
  have hshared : (crowded count).numberOf (Nat.repr 0) = (crowded count).numberOf count.repr :=
    (Program.numberOf_eq_numberOf_iff (getElem?_propositions_crowded (Nat.zero_le count))
      hplace).mpr hcount.symm
  have hfirst : Nat.repr 0 ∈ (crowded count).labelsAt 0 := List.mem_singleton_self _
  exact ⟨target, htarget, (Labeling.target_holdsAt_iff_number htarget 0).mpr
    ⟨Nat.zero_le _, _, hfirst, hshared⟩⟩

/-- The last name is attached inside the loop only. -/
theorem not_mem_labelsAt_crowded (hcount : 0 < count) {pc : Nat} (hpc : pc ≠ 1) :
    count.repr ∉ (crowded count).labelsAt pc := by
  intro hmem
  rw [Program.labelsAt] at hmem
  cases hfound : (crowded count).labels[pc]? with
  | none =>
    rw [hfound] at hmem
    exact List.not_mem_nil hmem
  | some found =>
    rw [hfound, Option.getD_some] at hmem
    rcases List.mem_cons.mp (mem_of_getElem?_ofList hfound) with heq | hentry
    · cases heq
      exact Nat.ne_of_gt hcount (Nat.repr_injective (List.mem_singleton.mp hmem))
    · cases List.mem_singleton.mp hentry
      exact hpc rfl

end TapeReach
