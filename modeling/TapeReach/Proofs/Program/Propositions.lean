import Mathlib.Data.List.Nodup
import Mathlib.Data.List.Sort
import Mathlib.Data.Prod.Lex
import Mathlib.Order.Bounds.Basic
import TapeReach.Proofs.Program.Target

/-!
# Propositions and labels

The propositions of a program are numbered in the order in which their names
occur for the first time, by position and then by their order there. As long
as there are no more names than words for their numbers, every question that
the tables answer is a question about the labels of a position: whether a
proposition holds, which ones hold, the truth values of all of them, and where
a target is to be found. A name may be repeated, at one position or at
several, and it may stand behind the end of the program, where it has a number
but holds nowhere.
-/

namespace TapeReach

section FirstOccurrence

variable {α β : Type}

/-- A name on a list of ascending places has a first place. -/
theorem exists_isLeast_of_sorted [Preorder β] {placed : List (α × β)}
    (hsorted : placed.Pairwise (·.2 < ·.2)) {a : α} (ha : a ∈ placed.map Prod.fst) :
    ∃ x, IsLeast {x | (a, x) ∈ placed} x := by
  induction placed with
  | nil => cases ha
  | cons entry rest ih =>
    obtain ⟨hfirst, hrest⟩ := List.pairwise_cons.mp hsorted
    obtain ⟨b, y⟩ := entry
    by_cases hb : a = b
    · subst hb
      refine ⟨y, List.mem_cons_self, fun x hx => ?_⟩
      rcases List.mem_cons.mp hx with heq | hmem
      · exact (Prod.mk.inj heq).2.ge
      · exact (hfirst _ hmem).le
    · obtain ⟨x, hx, hleast⟩ := ih hrest ((List.mem_cons.mp ha).resolve_left hb)
      refine ⟨x, List.mem_cons_of_mem _ hx, fun z hz => hleast ?_⟩
      exact (List.mem_cons.mp hz).resolve_left fun heq => hb (Prod.mk.inj heq).1

/-- Without its repeats a list of names is in the order of their first places. -/
theorem pairwise_eraseDups [DecidableEq α] [Preorder β] {placed : List (α × β)}
    (hsorted : placed.Pairwise (·.2 < ·.2)) :
    (placed.map Prod.fst).eraseDups.Pairwise fun a b =>
      ∃ x y, IsLeast {x | (a, x) ∈ placed} x ∧ IsLeast {y | (b, y) ∈ placed} y ∧ x < y := by
  -- What follows the first name is the rest without it, which is shorter but not the tail.
  induction hlength : placed.length using Nat.strong_induction_on generalizing placed with
  | _ n ih =>
    cases placed with
    | nil => exact List.Pairwise.nil
    | cons entry rest =>
      obtain ⟨hfirst, hrest⟩ := List.pairwise_cons.mp hsorted
      obtain ⟨a, x⟩ := entry
      let others := rest.filter ((fun c => !c == a) ∘ Prod.fst)
      have hothers : ∀ b ∈ (others.map Prod.fst).eraseDups, b ≠ a := by
        intro b hb
        obtain ⟨c, hc, rfl⟩ := List.mem_map.mp (List.mem_eraseDups.mp hb)
        simpa using (List.mem_filter.mp hc).2
      have hplaces : ∀ b ∈ (others.map Prod.fst).eraseDups,
          {y | (b, y) ∈ others} = {y | (b, y) ∈ (a, x) :: rest} := by
        intro b hb
        ext y
        simp [others, hothers b hb]
      rw [List.map_cons, List.eraseDups_cons, List.filter_map, List.pairwise_cons]
      constructor
      · intro b hb
        obtain ⟨y, hy⟩ := exists_isLeast_of_sorted (hrest.filter _) (List.mem_eraseDups.mp hb)
        have hmem : (b, y) ∈ rest := List.mem_of_mem_filter hy.1
        rw [hplaces b hb] at hy
        refine ⟨x, y, ⟨List.mem_cons_self, fun z hz => ?_⟩, hy, hfirst _ hmem⟩
        rcases List.mem_cons.mp hz with heq | hz'
        · exact (Prod.mk.inj heq).2.ge
        · exact (hfirst _ hz').le
      · have hshorter : others.length < n := by
          have hle : others.length ≤ rest.length := List.length_filter_le _ _
          rw [List.length_cons] at hlength
          omega
        refine (ih _ hshorter (hrest.filter _) rfl).imp_of_mem fun {b c} hb hc h => ?_
        rwa [hplaces b hb, hplaces c hc] at h

/-- The places in a list ascend. -/
theorem pairwise_zipIdx (xs : List α) : xs.zipIdx.Pairwise (·.2 < ·.2) := by
  rw [← List.pairwise_map (f := Prod.snd) (R := (· < ·)), List.zipIdx_map_snd]
  exact List.pairwise_lt_range'

/-- A list without its repeats has none. -/
theorem nodup_eraseDups [DecidableEq α] (xs : List α) : xs.eraseDups.Nodup := by
  have hordered := pairwise_eraseDups (pairwise_zipIdx xs)
  rw [List.zipIdx_map_fst] at hordered
  refine hordered.imp ?_
  rintro a b ⟨x, y, hx, hy, hlt⟩ rfl
  exact Nat.lt_irrefl _ (hx.unique hy ▸ hlt)

end FirstOccurrence

namespace Program

/-- The places of a name: each is a position and an index into the list of names there, and
they are ordered by position first. -/
def occurrences (program : Program) (name : String) : Set (ℕ ×ₗ ℕ) :=
  {place | (program.labelsAt (ofLex place).1)[(ofLex place).2]? = some name}

/-- The first place of one name is before the first place of the other. -/
def OccursFirst (program : Program) (name other : String) : Prop :=
  ∃ x y, IsLeast (program.occurrences name) x ∧ IsLeast (program.occurrences other) y ∧ x < y

/-- All names with their places, in order. -/
def placedNames (program : Program) : List (String × (ℕ ×ₗ ℕ)) :=
  program.labels.toList.flatMap fun entry =>
    entry.2.zipIdx.map fun named => (named.1, toLex (entry.1, named.2))

variable {program : Program} {name : String}

/-- The names at a position are stored there. -/
theorem getElem?_labelsAt {pc k : Nat} :
    (program.labelsAt pc)[k]? = some name ↔
      ∃ names, program.labels[pc]? = some names ∧ names[k]? = some name := by
  rw [labelsAt]
  cases program.labels[pc]? with
  | none => simp
  | some names => simp

/-- The list of names with their places has all of them. -/
theorem mem_placedNames {place : ℕ ×ₗ ℕ} :
    (name, place) ∈ program.placedNames ↔ place ∈ program.occurrences name := by
  obtain ⟨pc, k⟩ := place
  change _ ↔ (program.labelsAt pc)[k]? = some name
  simp only [placedNames, List.mem_flatMap, List.mem_map, Prod.exists,
    Std.ExtTreeMap.mem_toList_iff_getElem?_eq_some, List.mem_zipIdx_iff_getElem?,
    getElem?_labelsAt]
  constructor
  · rintro ⟨p, names, hnames, other, j, hj, heq⟩
    cases heq
    exact ⟨names, hnames, hj⟩
  · rintro ⟨names, hnames, hk⟩
    exact ⟨pc, names, hnames, name, k, hk, rfl⟩

/-- The list of names with their places is ordered. -/
theorem pairwise_placedNames (program : Program) : program.placedNames.Pairwise (·.2 < ·.2) := by
  refine List.pairwise_flatMap.mpr ⟨fun entry _ => ?_, ?_⟩
  · refine List.pairwise_map.mpr ((pairwise_zipIdx entry.2).imp fun h => ?_)
    exact Prod.Lex.toLex_lt_toLex.mpr (.inr ⟨rfl, h⟩)
  · refine Std.ExtTreeMap.ordered_keys_toList.imp fun {a b} hab x hx y hy => ?_
    obtain ⟨_, _, rfl⟩ := List.mem_map.mp hx
    obtain ⟨_, _, rfl⟩ := List.mem_map.mp hy
    exact Prod.Lex.toLex_lt_toLex.mpr (.inl (Nat.compare_eq_lt.mp hab))

/-- The list of names with their places lists the names in order. -/
theorem map_fst_placedNames (program : Program) :
    program.placedNames.map Prod.fst = program.labels.toList.flatMap Prod.snd := by
  rw [placedNames, List.map_flatMap]
  congr 1
  funext entry
  rw [List.map_map]
  exact List.zipIdx_map_fst 0 entry.2

/-- The positions of a label are those that carry it. -/
theorem mem_labelPositions {pc : Nat} :
    pc ∈ program.labelPositions name ↔ name ∈ program.labelsAt pc := by
  simp only [labelPositions, List.mem_map, List.mem_filter, Prod.exists, List.contains_iff_mem,
    Std.ExtTreeMap.mem_toList_iff_getElem?_eq_some, labelsAt]
  cases hnames : program.labels[pc]? with
  | none => simp [hnames]
  | some names => simp [hnames]

/-- The positions of a label ascend. -/
theorem pairwise_labelPositions (program : Program) (name : String) :
    (program.labelPositions name).Pairwise (· < ·) :=
  List.pairwise_map.mpr
    ((Std.ExtTreeMap.ordered_keys_toList.filter _).imp fun h => Nat.compare_eq_lt.mp h)

/-- The propositions are in the order of their first places. -/
theorem pairwise_propositions (program : Program) :
    program.propositions.Pairwise program.OccursFirst := by
  have hordered := pairwise_eraseDups program.pairwise_placedNames
  simp only [mem_placedNames, Set.ofPred_mem_eq, program.map_fst_placedNames] at hordered
  exact hordered

/-- The number of a proposition is the place of its name. -/
theorem numberOf_eq {k : Nat} (h : program.propositions[k]? = some name) :
    program.numberOf name = k.toUInt32 := by
  have hnodup : program.propositions.Nodup := nodup_eraseDups _
  obtain ⟨hlt, rfl⟩ := List.getElem?_eq_some_iff.mp h
  rw [numberOf, hnodup.idxOf_getElem]

/-- A name and the one that stands at its number have one number. -/
theorem numberOf_representative (h : name ∈ program.propositions) :
    program.numberOf (program.representative name) = program.numberOf name := by
  rw [numberOf_eq (getElem?_numberOf h), Nat.toUInt32_eq, UInt32.ofNat_toNat]

/-- Names with one number have one name at it. -/
theorem representative_eq_iff {other : String} (hname : name ∈ program.propositions)
    (hother : other ∈ program.propositions) :
    program.representative name = program.representative other ↔
      program.numberOf name = program.numberOf other := by
  constructor
  · intro h
    rw [← numberOf_representative hname, h, numberOf_representative hother]
  · intro h
    have hat := getElem?_numberOf hname
    rw [h, getElem?_numberOf hother] at hat
    exact (Option.some.inj hat).symm

end Program

namespace Labeling

/-- The tables agree with the labels of the program. -/
structure Agrees (labeling : Labeling) (program : Program) : Prop where
  /-- The propositions are the names that are attached somewhere. -/
  mem_names : ∀ name, name ∈ labeling.names ↔ ∃ pc, name ∈ program.labelsAt pc
  /-- Each name is listed once. -/
  nodup : labeling.names.toList.Nodup
  /-- The names are in the order of their first places. -/
  ordered : labeling.names.toList.Pairwise program.OccursFirst
  /-- Names and numbers are looked up by inverse functions. -/
  lookup : ∀ name id, labeling.lookup? name = some id ↔ labeling.name? id = some name
  /-- A proposition holds up to the end of the program where its name is attached. -/
  holds : ∀ id pc, labeling.holds id pc = true ↔
    pc ≤ program.size ∧ ∃ name, labeling.name? id = some name ∧ name ∈ program.labelsAt pc
  /-- The propositions at a position are listed once. -/
  once : ∀ pc, (labeling.propositionsAt pc).Nodup
  /-- The valuation has the truth value of each proposition, in order. -/
  valuation : ∀ pc, labeling.valuation pc =
    labeling.names.toList.map fun name =>
      (name, decide (pc ≤ program.size ∧ name ∈ program.labelsAt pc))
  /-- The labels of the program are those that have a target. -/
  exists_target : ∀ label,
    (∃ target, labeling.target label = .ok target) ↔ program.hasLabel label = true
  /-- The target has the name of its label. -/
  target_name : ∀ label target, labeling.target label = .ok target → target.name = label
  /-- The target holds up to the end of the program where the label is attached. -/
  target_holds : ∀ label target, labeling.target label = .ok target →
    ∀ pc, target.holdsAt pc = true ↔ pc ≤ program.size ∧ label ∈ program.labelsAt pc
  /-- The positions of the target are those of the label up to the end of the program,
  ascending. -/
  target_positions : ∀ label target, labeling.target label = .ok target →
    target.toList = (program.labelPositions label).filter (· ≤ program.size) ∧
      target.toList.Pairwise (· < ·)

variable {program : Program} {label name : String} {target : Target} {id : UInt32} {pc : Nat}

/-- Names and numbers are looked up by inverse functions. -/
theorem lookup?_iff (hfew : program.propositions.length ≤ UInt32.size) :
    (ofProgram program).lookup? name = some id ↔ (ofProgram program).name? id = some name := by
  constructor
  · intro h
    rw [lookup?_eq] at h
    split at h
    · rename_i hname
      cases h
      rw [name?_numberOf hname, Program.representative_eq hfew hname]
    · cases h
  · intro h
    rw [name?, ← Array.getElem?_toList, toList_names] at h
    rw [lookup?_eq, if_pos (List.mem_of_getElem? h), Program.numberOf_eq h, Nat.toUInt32_eq,
      UInt32.ofNat_toNat]

/-- The propositions at a position are the numbers of the names there. -/
theorem propositionsAt_eq (program : Program) (pc : Nat) :
    (ofProgram program).propositionsAt pc =
      if pc ≤ program.size then ((program.labelsAt pc).map program.numberOf).eraseDups else [] := by
  rw [propositionsAt, getElem?_byPosition]
  split <;> rfl

/-- The propositions at a position are listed once. -/
theorem nodup_propositionsAt (program : Program) (pc : Nat) :
    ((ofProgram program).propositionsAt pc).Nodup := by
  rw [propositionsAt_eq]
  split
  · exact nodup_eraseDups _
  · exact List.nodup_nil

/-- A number holds up to the end of the program where a name with it is attached. -/
theorem holds_iff_number :
    (ofProgram program).holds id pc = true ↔
      pc ≤ program.size ∧ ∃ name ∈ program.labelsAt pc, program.numberOf name = id := by
  rw [holds, propositionsAt_eq, List.contains_iff_mem]
  by_cases hpc : pc ≤ program.size
  · rw [if_pos hpc, List.mem_eraseDups, List.mem_map, and_iff_right hpc]
  · rw [if_neg hpc]
    exact iff_of_false List.not_mem_nil fun h => hpc h.1

/-- A proposition holds up to the end of the program where its name is attached. -/
theorem holds_iff (hfew : program.propositions.length ≤ UInt32.size) :
    (ofProgram program).holds id pc = true ↔
      pc ≤ program.size ∧
        ∃ name, (ofProgram program).name? id = some name ∧ name ∈ program.labelsAt pc := by
  rw [holds_iff_number]
  refine and_congr_right fun _ => exists_congr fun name => ?_
  rw [and_comm]
  refine and_congr_left fun hname => ?_
  rw [← lookup?_iff hfew, lookup?_eq, if_pos (Program.mem_propositions hname), Option.some.injEq]

/-- The valuation of a position tells of each name whether one with its number is attached
there. -/
theorem valuation_eq_number (program : Program) (pc : Nat) :
    (ofProgram program).valuation pc =
      program.propositions.map fun name => (name, decide (pc ≤ program.size ∧
        ∃ other ∈ program.labelsAt pc, program.numberOf other = program.numberOf name)) := by
  rw [valuation, toList_names]
  nth_rewrite 2 [← List.zipIdx_map_fst 0 program.propositions]
  rw [List.map_map]
  refine List.map_congr_left fun ⟨name, k⟩ hmem => ?_
  have hnumber := Program.numberOf_eq (List.mem_zipIdx_iff_getElem?.mp hmem)
  rw [Function.comp_apply, Prod.mk.injEq, Bool.eq_iff_iff, decide_eq_true_iff, holds_iff_number,
    hnumber]
  exact ⟨rfl, Iff.rfl⟩

/-- The valuation of a position tells of each name whether it is attached there. -/
theorem valuation_eq (hfew : program.propositions.length ≤ UInt32.size) (pc : Nat) :
    (ofProgram program).valuation pc =
      program.propositions.map fun name =>
        (name, decide (pc ≤ program.size ∧ name ∈ program.labelsAt pc)) := by
  rw [valuation_eq_number]
  refine List.map_congr_left fun name hname => ?_
  have hnumber : (∃ other ∈ program.labelsAt pc, program.numberOf other = program.numberOf name) ↔
      name ∈ program.labelsAt pc := by
    refine ⟨?_, fun h => ⟨name, h, rfl⟩⟩
    rintro ⟨other, hother, heq⟩
    exact (Program.numberOf_inj hfew (Program.mem_propositions hother) hname).mp heq ▸ hother
  simp only [hnumber]

/-- The target of a label has the name at its number. -/
theorem target_name_eq (h : (ofProgram program).target label = .ok target) :
    target.name = program.representative label := by
  rw [target_eq (mem_propositions_of_target h), Except.ok.injEq] at h
  rw [← h]

/-- The positions of a target are those of its label up to the end of the program. -/
theorem toList_target (hfew : program.propositions.length ≤ UInt32.size)
    (h : (ofProgram program).target label = .ok target) :
    target.toList = (program.labelPositions label).filter (· ≤ program.size) := by
  have hsorted : target.toList.Pairwise (· < ·) := List.pairwise_lt_range.filter _
  refine hsorted.eq_of_mem_iff ((program.pairwise_labelPositions label).filter _) fun pc => ?_
  have hbound : target.holdsAt pc = true → pc < target.positions.size := by
    intro hpc
    refine Nat.lt_of_not_le fun hle => ?_
    rw [Target.holdsAt, Array.getElem?_eq_none hle] at hpc
    exact Bool.false_ne_true hpc
  rw [Target.toList, List.mem_filter, List.mem_range, and_iff_right_of_imp hbound,
    target_holdsAt_iff hfew h, List.mem_filter, Program.mem_labelPositions, decide_eq_true_iff,
    and_comm]

/-- The tables of a program that has no more names than there are words of 32 bits agree with
its labels: each name that is attached somewhere is one proposition, numbered by its first
place, and a proposition or a target holds exactly where its name is attached, up to the end
of the program. -/
theorem ofProgram_agrees (hfew : program.propositions.length ≤ UInt32.size) :
    (ofProgram program).Agrees program where
  mem_names name := by
    rw [← Array.mem_toList_iff, toList_names, Program.mem_propositions_iff, Program.hasLabel_iff]
  nodup := toList_names program ▸ nodup_eraseDups _
  ordered := toList_names program ▸ program.pairwise_propositions
  lookup _ _ := lookup?_iff hfew
  holds _ _ := holds_iff hfew
  once := nodup_propositionsAt program
  valuation pc := (toList_names program).symm ▸ valuation_eq hfew pc
  exists_target label := by
    constructor
    · rintro ⟨_, htarget⟩
      exact Program.mem_propositions_iff.mp (mem_propositions_of_target htarget)
    · exact Labeling.exists_target
  target_name label target htarget := by
    rw [target_name_eq htarget, Program.representative_eq hfew (mem_propositions_of_target htarget)]
  target_holds _ _ htarget := target_holdsAt_iff hfew htarget
  target_positions _ _ htarget :=
    ⟨toList_target hfew htarget, List.pairwise_lt_range.filter _⟩

/-- Names that are repeated, at one position and at several, and one that stands behind the end
of the program only. -/
def repeating : Program := .ofTables [.increment] [] [(0, ["b", "a", "b"]), (7, ["c", "a"])]

/-- A repeated name has one number, and a name behind the end of the program has a number too. -/
theorem repeating_agrees :
    repeating.propositions = ["b", "a", "c"] ∧ (ofProgram repeating).Agrees repeating := by
  have hnames : repeating.propositions = ["b", "a", "c"] := by rfl
  exact ⟨hnames, ofProgram_agrees (by rw [hnames]; decide)⟩

end Labeling

end TapeReach
