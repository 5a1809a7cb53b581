import Mathlib.Data.List.Basic
import TapeReach.Program.Labeling

/-!
# Where a target holds

The tables of a labeling are filled name by name, and each step keeps to a
closed form: the names are those met so far without their repeats, the number
of a name is its index among them, as a word of 32 bits, and at each position
stand the numbers of the names met there. A target exists exactly for the
labels of the program, and it holds up to the end of the program wherever a
name with the number of its label is attached. As long as there are no more
names than words, that is the label itself.
-/

namespace TapeReach

section Tables

/-- Behind a list without repeats stands a further member only if it is new. -/
theorem eraseDups_concat {α : Type} [BEq α] [LawfulBEq α] (xs : List α) (x : α) :
    (xs ++ [x]).eraseDups = if xs.contains x then xs.eraseDups else xs.eraseDups ++ [x] := by
  rw [List.eraseDups_append, List.removeAll, List.filter_cons, List.filter_nil,
    List.elem_eq_contains]
  cases xs.contains x with
  | true => exact List.append_nil _
  | false => rfl

/-- The number of a name among the names of some entries: its index, as a word. -/
def numberIn (entries : List (Nat × String)) (name : String) : UInt32 :=
  ((entries.map Prod.snd).eraseDups.idxOf name).toUInt32

/-- The numbers of the names at a position, without repeats. -/
def numbersAt (entries : List (Nat × String)) (pc : Nat) : List UInt32 :=
  ((entries.filter (·.1 == pc)).map fun entry => numberIn entries entry.2).eraseDups

variable {entries : List (Nat × String)} {pc positions : Nat} {name other : String}

/-- A further entry brings its name. -/
theorem mem_names_concat :
    other ∈ (entries ++ [(pc, name)]).map Prod.snd ↔
      other ∈ entries.map Prod.snd ∨ other = name := by
  rw [List.map_append, List.mem_append, List.map_cons, List.map_nil, List.mem_singleton]

/-- A further entry changes no number that has been given. -/
theorem numberIn_concat (h : other ∈ entries.map Prod.snd) :
    numberIn (entries ++ [(pc, name)]) other = numberIn entries other := by
  have hmem : other ∈ (entries.map Prod.snd).eraseDups := List.mem_eraseDups.mpr h
  rw [numberIn, List.map_append, List.map_cons, List.map_nil, eraseDups_concat]
  split
  · rfl
  · rw [List.idxOf_append_of_mem hmem, numberIn]

/-- A new name has the number that comes next. -/
theorem numberIn_concat_new (h : name ∉ entries.map Prod.snd) :
    numberIn (entries ++ [(pc, name)]) name =
      (entries.map Prod.snd).eraseDups.length.toUInt32 := by
  have hnot : name ∉ (entries.map Prod.snd).eraseDups := fun hmem => h (List.mem_eraseDups.mp hmem)
  rw [numberIn, List.map_append, List.map_cons, List.map_nil, eraseDups_concat,
    if_neg (by rwa [List.contains_iff_mem]), List.idxOf_append, if_neg hnot, List.idxOf_cons_self,
    Nat.zero_add]

/-- A further entry stands behind the numbers at its position, unless its number is there. -/
theorem numbersAt_concat (entries : List (Nat × String)) (pc q : Nat) (name : String) :
    numbersAt (entries ++ [(pc, name)]) q =
      if pc = q then
        if (numbersAt entries q).contains (numberIn (entries ++ [(pc, name)]) name) then
          numbersAt entries q
        else numbersAt entries q ++ [numberIn (entries ++ [(pc, name)]) name]
      else numbersAt entries q := by
  have hkeep : (entries.filter (·.1 == q)).map
        (fun entry => numberIn (entries ++ [(pc, name)]) entry.2) =
      (entries.filter (·.1 == q)).map fun entry => numberIn entries entry.2 :=
    List.map_congr_left fun entry hentry =>
      numberIn_concat (List.mem_map_of_mem (List.mem_of_mem_filter hentry))
  rw [numbersAt, List.filter_append, List.map_append, hkeep, List.filter_cons, List.filter_nil]
  by_cases hpc : pc = q
  · have hcontains : ∀ id, (numbersAt entries q).contains id =
        ((entries.filter (·.1 == q)).map fun entry => numberIn entries entry.2).contains id := by
      intro id
      rw [Bool.eq_iff_iff, List.contains_iff_mem, List.contains_iff_mem, numbersAt,
        List.mem_eraseDups]
    rw [if_pos (beq_iff_eq.mpr hpc), if_pos hpc, List.map_cons, List.map_nil, eraseDups_concat,
      hcontains]
    rfl
  · rw [if_neg (fun h => hpc (beq_iff_eq.mp h)), if_neg hpc, List.map_nil, List.append_nil]
    rfl

namespace Labeling

/-- The tables hold what a list of positions and names says. -/
structure Tabulates (labeling : Labeling) (positions : Nat) (entries : List (Nat × String)) :
    Prop where
  /-- The names are those of the entries, in order of first occurrence. -/
  names : labeling.names.toList = (entries.map Prod.snd).eraseDups
  /-- Each of them has its number. -/
  byName : ∀ name, labeling.byName[name]? =
    if name ∈ entries.map Prod.snd then some (numberIn entries name) else none
  /-- At each position stand the numbers of its names. -/
  byPosition : ∀ pc, labeling.byPosition[pc]? =
    if pc < positions then some (numbersAt entries pc) else none

variable {labeling : Labeling}

/-- Without any name the tables are empty. -/
theorem tabulates_empty (positions : Nat) : (empty positions).Tabulates positions [] where
  names := rfl
  byName name := by
    rw [empty, Std.HashMap.getElem?_empty]
    rfl
  byPosition pc := Array.getElem?_replicate

/-- A name that is known is only noted at its position. -/
theorem Tabulates.note_known (h : labeling.Tabulates positions entries)
    (hname : name ∈ entries.map Prod.snd) :
    (labeling.note pc (numberIn entries name)).Tabulates positions (entries ++ [(pc, name)]) where
  names := by
    rw [List.map_append, List.map_cons, List.map_nil, eraseDups_concat,
      if_pos (List.contains_iff_mem.mpr hname)]
    exact h.names
  byName other := by
    change labeling.byName[other]? = _
    rw [h.byName]
    by_cases hother : other ∈ entries.map Prod.snd
    · rw [if_pos hother, if_pos (mem_names_concat.mpr (.inl hother)), numberIn_concat hother]
    · have hnot : other ∉ (entries ++ [(pc, name)]).map Prod.snd := by
        rw [mem_names_concat, not_or]
        exact ⟨hother, fun heq => hother (heq ▸ hname)⟩
      rw [if_neg hother, if_neg hnot]
  byPosition q := by
    rw [note, Array.getElem?_modify, h.byPosition, numbersAt_concat, numberIn_concat hname]
    split <;> split <;> rfl

/-- A new name is numbered and then noted at its position. -/
theorem Tabulates.note_new (h : labeling.Tabulates positions entries)
    (hname : name ∉ entries.map Prod.snd) :
    ((labeling.add name).note pc labeling.nextNumber).Tabulates positions
      (entries ++ [(pc, name)]) := by
  have hnumber : numberIn (entries ++ [(pc, name)]) name = labeling.nextNumber := by
    rw [numberIn_concat_new hname, ← h.names, Array.length_toList, nextNumber]
  constructor
  case names =>
    rw [List.map_append, List.map_cons, List.map_nil, eraseDups_concat,
      if_neg (by rwa [List.contains_iff_mem]), ← h.names]
    exact Array.toList_push
  case byName =>
    intro other
    change (labeling.byName.insert name labeling.nextNumber)[other]? = _
    rw [Std.HashMap.getElem?_insert]
    by_cases hother : name = other
    · subst hother
      rw [if_pos (beq_self_eq_true name), if_pos (mem_names_concat.mpr (.inr rfl)), hnumber]
    · rw [if_neg (fun hbeq => hother (beq_iff_eq.mp hbeq)), h.byName]
      by_cases hmem : other ∈ entries.map Prod.snd
      · rw [if_pos hmem, if_pos (mem_names_concat.mpr (.inl hmem)), numberIn_concat hmem]
      · have hnot : other ∉ (entries ++ [(pc, name)]).map Prod.snd := by
          rw [mem_names_concat, not_or]
          exact ⟨hmem, fun heq => hother heq.symm⟩
        rw [if_neg hmem, if_neg hnot]
  case byPosition =>
    intro q
    rw [note, Array.getElem?_modify, numbersAt_concat, hnumber]
    change (if pc = q then labeling.byPosition[q]?.map _ else labeling.byPosition[q]?) = _
    rw [h.byPosition]
    split <;> split <;> rfl

/-- One step of the pass enters one name. -/
theorem Tabulates.attach (h : labeling.Tabulates positions entries) (pc : Nat) (name : String) :
    (attach pc labeling name).Tabulates positions (entries ++ [(pc, name)]) := by
  unfold Labeling.attach
  rw [h.byName]
  by_cases hname : name ∈ entries.map Prod.snd
  · rw [if_pos hname]
    exact h.note_known hname
  · rw [if_neg hname]
    exact h.note_new hname

/-- The pass over a list of names at their positions enters all of them. -/
theorem Tabulates.foldl (h : labeling.Tabulates positions entries) (rest : List (Nat × String)) :
    (rest.foldl (fun labeling entry => Labeling.attach entry.1 labeling entry.2)
      labeling).Tabulates positions (entries ++ rest) := by
  induction rest generalizing labeling entries with
  | nil => exact (List.append_nil entries).symm ▸ h
  | cons entry rest ih =>
    have hstep := ih (h.attach entry.1 entry.2)
    rwa [List.append_assoc, List.singleton_append] at hstep

end Labeling

end Tables

namespace Program

/-- The names of a program with their positions, in order. -/
def attachments (program : Program) : List (Nat × String) :=
  program.labels.toList.flatMap fun entry => entry.2.map (entry.1, ·)

/-- The distinct names of a program, in order of first occurrence. -/
def propositions (program : Program) : List String :=
  (program.labels.toList.flatMap Prod.snd).eraseDups

/-- The number of a name: its index among the names, as a word. -/
def numberOf (program : Program) (name : String) : UInt32 :=
  (program.propositions.idxOf name).toUInt32

/-- The name that stands at the number of a name. -/
def representative (program : Program) (name : String) : String :=
  (program.propositions[(program.numberOf name).toNat]?).getD name

variable {program : Program} {label name other : String} {pc : Nat}

/-- The labels of a program are those at its positions. -/
theorem hasLabel_iff :
    program.hasLabel label = true ↔ ∃ pc, label ∈ program.labelsAt pc := by
  simp only [hasLabel, List.any_eq_true, List.contains_iff_mem, Prod.exists,
    Std.ExtTreeMap.mem_toList_iff_getElem?_eq_some, labelsAt]
  constructor
  · rintro ⟨pc, names, hnames, hlabel⟩
    exact ⟨pc, by rwa [hnames, Option.getD_some]⟩
  · rintro ⟨pc, hlabel⟩
    cases hnames : program.labels[pc]? with
    | none =>
      rw [hnames, Option.getD_none] at hlabel
      exact (List.not_mem_nil hlabel).elim
    | some names => exact ⟨pc, names, hnames, by rwa [hnames, Option.getD_some] at hlabel⟩

/-- The propositions are the names that are attached somewhere. -/
theorem mem_propositions_iff : name ∈ program.propositions ↔ program.hasLabel name = true := by
  simp only [propositions, List.mem_eraseDups, List.mem_flatMap, hasLabel, List.any_eq_true,
    List.contains_iff_mem]

/-- A name at a position is one of the propositions. -/
theorem mem_propositions (h : name ∈ program.labelsAt pc) : name ∈ program.propositions :=
  mem_propositions_iff.mpr (hasLabel_iff.mpr ⟨pc, h⟩)

/-- The names of the attachments are those of the program. -/
theorem map_snd_attachments (program : Program) :
    program.attachments.map Prod.snd = program.labels.toList.flatMap Prod.snd := by
  rw [attachments, List.map_flatMap]
  refine List.flatMap_congr fun entry _ => ?_
  rw [List.map_map]
  exact List.map_id _

/-- The names that the attachments have at a position are those attached there. -/
theorem map_snd_filter_attachments (program : Program) (pc : Nat) :
    (program.attachments.filter (·.1 == pc)).map Prod.snd = program.labelsAt pc := by
  have hentry : ∀ entry : Nat × List String,
      ((entry.2.map (entry.1, ·)).filter (·.1 == pc)).map Prod.snd =
        if entry.1 = pc then entry.2 else [] := by
    intro entry
    by_cases hpc : entry.1 = pc
    · have hall : (entry.2.map (entry.1, ·)).filter (·.1 == pc) = entry.2.map (entry.1, ·) := by
        refine List.filter_eq_self.mpr fun named hnamed => ?_
        obtain ⟨name, _, rfl⟩ := List.mem_map.mp hnamed
        exact beq_iff_eq.mpr hpc
      rw [if_pos hpc, hall, List.map_map]
      exact List.map_id _
    · have hnone : (entry.2.map (entry.1, ·)).filter (·.1 == pc) = [] := by
        refine List.filter_eq_nil_iff.mpr fun named hnamed hbeq => ?_
        obtain ⟨name, _, rfl⟩ := List.mem_map.mp hnamed
        exact hpc (beq_iff_eq.mp hbeq)
      rw [if_neg hpc, hnone, List.map_nil]
  have hskip : ∀ entries : List (Nat × List String), (∀ entry ∈ entries, entry.1 ≠ pc) →
      entries.flatMap (fun entry => if entry.1 = pc then entry.2 else []) = [] :=
    fun entries hne => List.flatMap_eq_nil_iff.mpr fun entry h => if_neg (hne entry h)
  rw [attachments, List.filter_flatMap, List.map_flatMap]
  simp only [hentry, labelsAt]
  cases hnames : program.labels[pc]? with
  | none =>
    refine hskip _ fun entry hmem heq => ?_
    rw [← heq, Std.ExtTreeMap.mem_toList_iff_getElem?_eq_some.mp hmem] at hnames
    cases hnames
  | some names =>
    -- The position has one entry, and no other entry has its key.
    have hmem := Std.ExtTreeMap.mem_toList_iff_getElem?_eq_some.mpr hnames
    obtain ⟨before, behind, hsplit⟩ := List.append_of_mem hmem
    have hkeys := program.labels.distinct_keys_toList
    rw [hsplit, List.pairwise_append, List.pairwise_cons] at hkeys
    obtain ⟨_, ⟨hbehind, _⟩, hbefore⟩ := hkeys
    rw [hsplit, List.flatMap_append, List.flatMap_cons, if_pos rfl, hskip before, hskip behind,
      List.nil_append, List.append_nil]
    · rfl
    · exact fun entry h heq => hbehind entry h (Nat.compare_eq_eq.mpr heq.symm)
    · exact fun entry h heq => hbefore entry h _ List.mem_cons_self (Nat.compare_eq_eq.mpr heq)

/-- The number of a name is its number among the attachments. -/
theorem numberIn_attachments (program : Program) :
    numberIn program.attachments = program.numberOf := by
  funext name
  rw [numberIn, map_snd_attachments]
  rfl

/-- The numbers at a position are those of the names there. -/
theorem numbersAt_attachments (program : Program) (pc : Nat) :
    numbersAt program.attachments pc = ((program.labelsAt pc).map program.numberOf).eraseDups := by
  rw [numbersAt, ← map_snd_filter_attachments, List.map_map, numberIn_attachments]
  rfl

/-- A name stands at the number of each name. -/
theorem getElem?_numberOf (h : name ∈ program.propositions) :
    program.propositions[(program.numberOf name).toNat]? = some (program.representative name) := by
  have hlt : (program.numberOf name).toNat < program.propositions.length := by
    refine Nat.lt_of_le_of_lt ?_ (List.idxOf_lt_length_iff.mpr h)
    rw [numberOf, Nat.toUInt32_eq, UInt32.toNat_ofNat']
    exact Nat.mod_le _ _
  rw [representative, List.getElem?_eq_getElem hlt, Option.getD_some]

/-- As long as there are no more names than words, the number of a name is its index. -/
theorem toNat_numberOf (hfew : program.propositions.length ≤ UInt32.size)
    (h : name ∈ program.propositions) :
    (program.numberOf name).toNat = program.propositions.idxOf name := by
  rw [numberOf, Nat.toUInt32_eq, UInt32.toNat_ofNat']
  exact Nat.mod_eq_of_lt (Nat.lt_of_lt_of_le (List.idxOf_lt_length_iff.mpr h) hfew)

/-- As long as there are no more names than words, no two names have one number. -/
theorem numberOf_inj (hfew : program.propositions.length ≤ UInt32.size)
    (hname : name ∈ program.propositions) (hother : other ∈ program.propositions) :
    program.numberOf name = program.numberOf other ↔ name = other := by
  rw [← UInt32.toNat_inj, toNat_numberOf hfew hname, toNat_numberOf hfew hother,
    List.idxOf_inj hname]

/-- As long as there are no more names than words, each name stands for itself. -/
theorem representative_eq (hfew : program.propositions.length ≤ UInt32.size)
    (h : name ∈ program.propositions) : program.representative name = name := by
  rw [representative, toNat_numberOf hfew h, List.getElem?_idxOf h, Option.getD_some]

end Program

namespace Labeling

variable {program : Program} {label : String} {target : Target} {pc : Nat}

/-- The tables of a program hold what its labels say. -/
theorem tabulates_ofProgram (program : Program) :
    (ofProgram program).Tabulates (program.size + 1) program.attachments := by
  have hpass := (tabulates_empty (program.size + 1)).foldl program.attachments
  simp only [Program.attachments, List.foldl_flatMap, List.foldl_map] at hpass
  exact hpass

/-- The names are the propositions of the program. -/
theorem toList_names (program : Program) :
    (ofProgram program).names.toList = program.propositions := by
  rw [(tabulates_ofProgram program).names, Program.map_snd_attachments]
  rfl

/-- The propositions, and no other names, have their numbers. -/
theorem lookup?_eq (program : Program) (name : String) :
    (ofProgram program).lookup? name =
      if name ∈ program.propositions then some (program.numberOf name) else none := by
  rw [lookup?, (tabulates_ofProgram program).byName, Program.numberIn_attachments,
    Program.map_snd_attachments]
  simp only [Program.propositions, List.mem_eraseDups]

/-- Up to the end of the program the numbers of the names stand at their positions. -/
theorem getElem?_byPosition (program : Program) (pc : Nat) :
    (ofProgram program).byPosition[pc]? =
      if pc ≤ program.size then some ((program.labelsAt pc).map program.numberOf).eraseDups
      else none := by
  rw [(tabulates_ofProgram program).byPosition, Program.numbersAt_attachments]
  simp only [Nat.lt_succ_iff]

/-- The name at the number of a name. -/
theorem name?_numberOf {name : String} (h : name ∈ program.propositions) :
    (ofProgram program).name? (program.numberOf name) = some (program.representative name) := by
  rw [name?, ← Array.getElem?_toList, toList_names, Program.getElem?_numberOf h]

/-- Every label of a program has a target, with the name at its number, and the target holds
where that number is noted. -/
theorem target_eq (h : label ∈ program.propositions) :
    (ofProgram program).target label = .ok ⟨program.representative label,
      (ofProgram program).byPosition.map (·.contains (program.numberOf label))⟩ := by
  have hlookup : (ofProgram program).byName[label]? = some (program.numberOf label) :=
    (lookup?_eq program label).trans (if_pos h)
  obtain ⟨_, hname⟩ := Array.getElem?_eq_some_iff.mp (name?_numberOf h)
  unfold Labeling.target
  split
  · rename_i id hid
    rw [hlookup, Option.some.injEq] at hid
    subst hid
    simp only [hname]
  · rename_i hnone
    rw [hlookup] at hnone
    cases hnone

/-- A label that is attached nowhere has no target. -/
theorem target_of_not_mem (h : label ∉ program.propositions) :
    (ofProgram program).target label = .error (.unknownLabel label) := by
  have hlookup : (ofProgram program).byName[label]? = none :=
    (lookup?_eq program label).trans (if_neg h)
  unfold Labeling.target
  split
  · rename_i id hid
    rw [hlookup] at hid
    cases hid
  · rfl

/-- Only the labels of a program have a target. -/
theorem mem_propositions_of_target (h : (ofProgram program).target label = .ok target) :
    label ∈ program.propositions := by
  by_contra hnot
  rw [target_of_not_mem hnot] at h
  cases h

/-- Every label of a program has a target. -/
theorem exists_target (h : program.hasLabel label = true) :
    ∃ target, (ofProgram program).target label = .ok target :=
  ⟨_, target_eq (Program.mem_propositions_iff.mpr h)⟩

/-- The target of a label holds up to the end of the program where a name with the number of
the label is attached. -/
theorem target_holdsAt_iff_number (h : (ofProgram program).target label = .ok target) (pc : Nat) :
    target.holdsAt pc = true ↔ pc ≤ program.size ∧
      ∃ name ∈ program.labelsAt pc, program.numberOf name = program.numberOf label := by
  rw [target_eq (mem_propositions_of_target h), Except.ok.injEq] at h
  rw [← h, Target.holdsAt, Array.getElem?_map, getElem?_byPosition]
  by_cases hpc : pc ≤ program.size
  · rw [if_pos hpc, Option.map_some, Option.getD_some, List.contains_iff_mem, List.mem_eraseDups,
      List.mem_map, and_iff_right hpc]
  · rw [if_neg hpc, Option.map_none, Option.getD_none]
    exact iff_of_false Bool.false_ne_true fun hholds => hpc hholds.1

/-- The target of a label holds up to the end of the program wherever the label is attached. -/
theorem target_holdsAt_of_mem (h : (ofProgram program).target label = .ok target)
    (hpc : pc ≤ program.size) (hlabel : label ∈ program.labelsAt pc) :
    target.holdsAt pc = true :=
  (target_holdsAt_iff_number h pc).mpr ⟨hpc, label, hlabel, rfl⟩

/-- As long as there are no more names than words, the target of a label holds up to the end
of the program exactly where the label is attached. -/
theorem target_holdsAt_iff (hfew : program.propositions.length ≤ UInt32.size)
    (h : (ofProgram program).target label = .ok target) (pc : Nat) :
    target.holdsAt pc = true ↔ pc ≤ program.size ∧ label ∈ program.labelsAt pc := by
  have hlabel := mem_propositions_of_target h
  rw [target_holdsAt_iff_number h]
  refine and_congr_right fun _ => ⟨?_, fun hmem => ⟨label, hmem, rfl⟩⟩
  rintro ⟨name, hname, hnumber⟩
  exact (Program.numberOf_inj hfew (Program.mem_propositions hname) hlabel).mp hnumber ▸ hname

end Labeling

end TapeReach
