import Mathlib.Order.Bounds.Basic
import TapeReach.Proofs.Check
import TapeReach.Proofs.Counterexample

/-!
# When a check fails

A check looks for its label first and for the jump targets of all brackets
next. It fails if the label is attached nowhere, whatever the jump table
holds, or else if a bracket has no jump target, and then it names the first
such bracket, even if no run comes there. When both have been looked at, the
successors of every reachable state are known, also of those behind the end of
the program, so that the search cannot fail, as long as no jump leads to the
greatest word.
-/

namespace TapeReach

namespace Program

/-- The bracket at the position has no jump target. -/
def Untargeted (program : Program) (pc : Nat) : Prop :=
  (∃ i, program.instructionAt? pc = some i ∧ i.isJump = true) ∧ program.jumpTarget? pc = none

variable {program : Program} {label : String} {pc : Nat}

/-- A bracket without a jump target is one of the instructions. -/
theorem Untargeted.lt_size (h : program.Untargeted pc) : pc < program.size := by
  obtain ⟨⟨i, hi, _⟩, _⟩ := h
  exact (Array.getElem?_eq_some_iff.mp hi).1

/-- The test that looks for a bracket without a jump target. -/
theorem untargeted_iff :
    ((program.instructionAt? pc).any Instruction.isJump && (program.jumpTarget? pc).isNone) = true ↔
      program.Untargeted pc := by
  rw [Bool.and_eq_true, Option.any_eq_true, Option.isNone_iff_eq_none, Untargeted]

/-- The bracket that is found first is the first one without a jump target. -/
theorem firstUntargeted?_eq_some :
    program.firstUntargeted? = some pc ↔ IsLeast {p | program.Untargeted p} pc := by
  rw [firstUntargeted?, List.find?_range_eq_some, untargeted_iff, List.mem_range]
  constructor
  · rintro ⟨hpc, _, hbefore⟩
    refine ⟨hpc, fun p hp => Nat.le_of_not_lt fun hlt => ?_⟩
    have hnot := hbefore p hlt
    rw [untargeted_iff.mpr hp] at hnot
    cases hnot
  · rintro ⟨hpc, hleast⟩
    refine ⟨hpc, hpc.lt_size, fun p hp => ?_⟩
    rw [Bool.not_eq_true', Bool.eq_false_iff]
    exact fun hnot => Nat.not_le_of_lt hp (hleast (untargeted_iff.mp hnot))

/-- A program without a bracket that lacks a jump target is accepted. -/
theorem validate_of_targeted (h : ∀ pc, ¬ program.Untargeted pc) : program.validate = .ok () := by
  unfold validate
  cases hfirst : program.firstUntargeted? with
  | none => rfl
  | some pc => exact absurd (firstUntargeted?_eq_some.mp hfirst).1 (h pc)

/-- A program is refused for the first bracket without a jump target. -/
theorem validate_of_untargeted (h : IsLeast {p | program.Untargeted p} pc) :
    program.validate = .error (.malformedJumpTable pc) := by
  rw [validate, firstUntargeted?_eq_some.mpr h]

end Program

variable {program : Program} {label : String} {settings : Settings} {polls : Polls} {pc : Nat}

/-- A label that is attached nowhere has no target. -/
theorem Labeling.target_of_unlabelled (h : ∀ pc, label ∉ program.labelsAt pc) :
    (ofProgram program).target label = .error (.unknownLabel label) := by
  refine target_of_not_mem ?_
  rw [Program.mem_propositions_iff, Program.hasLabel_iff, not_exists]
  exact h

/-- A check for a label that is attached nowhere fails before it looks at the jump table. -/
theorem checkReach_of_unlabelled (h : ∀ pc, label ∉ program.labelsAt pc) :
    checkReach program label settings polls = .error (.unknownLabel label) := by
  rw [checkReach, Program.checkTarget, Labeling.target_of_unlabelled h]
  rfl

/-- A check for a label of a program that is refused fails for the same reason. -/
theorem checkReach_of_refused (hlabel : ∃ pc, label ∈ program.labelsAt pc) {e : CheckError}
    (hprogram : program.validate = .error e) :
    checkReach program label settings polls = .error e := by
  obtain ⟨target, htarget⟩ := Labeling.exists_target (Program.hasLabel_iff.mpr hlabel)
  rw [checkReach, Program.checkTarget, htarget, hprogram]
  rfl

/-- A check for a label of a program that is accepted has an answer, if some position follows
the target of every jump. -/
theorem exists_checkReach (hlabel : ∃ pc, label ∈ program.labelsAt pc)
    (hprogram : program.validate = .ok ()) (hrange : program.InRange) :
    ∃ analysis, checkReach program label settings polls = .ok analysis := by
  obtain ⟨target, hcheck⟩ :=
    Program.exists_checkTarget hprogram (Program.hasLabel_iff.mpr hlabel)
  obtain ⟨verdict, hverdict⟩ := (program.search_endsWithin target settings polls).exists_verdict
    fun s hs => Program.exists_successors hprogram hrange hs.reachable
  exact ⟨_, checkReach_of_search hcheck hverdict⟩

/-- A check fails exactly when its label is attached nowhere or some bracket has no jump
target. In the first case it names the label, whatever the jump table holds, and in the
second the first such bracket. Otherwise the successors of every state are known that needs no
word that does not exist, no reachable state needs one, and however far the search has come
when it ends, it ends without a failure. Only for what is said of a search that begins must
some position follow the target of every jump. -/
theorem checkReach_error_iff (program : Program) (label : String) (settings : Settings)
    (polls : Polls) :
    (program.InRange → ((∃ e, checkReach program label settings polls = .error e) ↔
      (∀ pc, label ∉ program.labelsAt pc) ∨ ∃ pc, program.Untargeted pc)) ∧
    ((∀ pc, label ∉ program.labelsAt pc) →
      checkReach program label settings polls = .error (.unknownLabel label)) ∧
    ((∃ pc, label ∈ program.labelsAt pc) → ∀ pc, IsLeast {p | program.Untargeted p} pc →
      checkReach program label settings polls = .error (.malformedJumpTable pc)) ∧
    (program.InRange → (∃ pc, label ∈ program.labelsAt pc) → (∀ pc, ¬ program.Untargeted pc) →
      ∃ target, program.checkTarget label = .ok target ∧
        (∀ s, ¬ program.Overflows s →
          ∃ next, (program.stateSpace settings.io).successors s = .ok next) ∧
        (∀ s, (program.stateSpace settings.io).Reachable s → ¬ program.Overflows s) ∧
        ∀ n r, Search.EndsWithin (program.stateSpace settings.io) target.holds settings.limits
          polls n r → ∃ verdict, r.verdict = .ok verdict) := by
  refine ⟨fun hrange => ⟨?_, ?_⟩, checkReach_of_unlabelled, fun hlabel pc hpc => ?_,
    fun hrange hlabel hjumps => ?_⟩
  · rintro ⟨e, he⟩
    by_contra hnone
    obtain ⟨hlabel, hjumps⟩ := not_or.mp hnone
    rw [not_forall_not] at hlabel
    have hprogram := Program.validate_of_targeted (not_exists.mp hjumps)
    obtain ⟨analysis, hanalysis⟩ := exists_checkReach hlabel hprogram hrange
    rw [he] at hanalysis
    cases hanalysis
  · intro hcause
    by_cases hlabel : ∃ pc, label ∈ program.labelsAt pc
    · have hjumps := hcause.resolve_left (not_forall_not.mpr hlabel)
      classical
      have hleast : IsLeast {p | program.Untargeted p} (Nat.find hjumps) :=
        ⟨Nat.find_spec hjumps, fun p hp => Nat.find_min' hjumps hp⟩
      exact ⟨_, checkReach_of_refused hlabel (Program.validate_of_untargeted hleast)⟩
    · exact ⟨_, checkReach_of_unlabelled (not_exists.mp hlabel)⟩
  · exact checkReach_of_refused hlabel (Program.validate_of_untargeted hpc)
  · have hprogram := Program.validate_of_targeted hjumps
    obtain ⟨target, hcheck⟩ :=
      Program.exists_checkTarget hprogram (Program.hasLabel_iff.mpr hlabel)
    refine ⟨target, hcheck, fun s hs => Program.successors_ok hprogram hs settings.io,
      fun s hs => hrange.not_overflows hs, fun n r hr => ?_⟩
    exact hr.exists_verdict fun s hs => Program.exists_successors hprogram hrange hs.reachable

/-- A jump over a bracket that has no jump target, to a position behind the end. -/
def gapped : Program := .ofTables [.jumpIfZero, .jumpIfNonZero] [(0, 9)] [(7, ["far"])]

/-- The second bracket is never reached, and a check fails because of it all the same; but
a check for a label that does not exist fails because of the label. With both brackets in
order no search fails. -/
theorem gapped_fails :
    (∀ s, (gapped.stateSpace {}).Reachable s → s.pc ≠ 1) ∧
      checkReach gapped "far" {} {} = .error (.malformedJumpTable 1) ∧
      checkReach gapped "near" {} {} = .error (.unknownLabel "near") ∧
      Program.parse "[_in_]" = .ok (bypass 2 inside) ∧
      ∃ target, (bypass 2 inside).checkTarget "in" = .ok target ∧
        ∀ n r, Search.EndsWithin ((bypass 2 inside).stateSpace {}) target.holds {} {} n r →
          ∃ verdict, r.verdict = .ok verdict := by
  have hreachable : ∀ s, (gapped.stateSpace {}).Reachable s →
      s = State.initial none ∨ s = (State.initial none).jump 9 := by
    intro s hs
    induction hs with
    | initial => exact .inl rfl
    | next _ hst ih =>
      obtain ⟨next, hnext, ht⟩ := hst
      rcases ih with rfl | rfl
      · cases hnext
        exact .inr (List.mem_singleton.mp ht)
      · cases hnext
        exact (List.not_mem_nil ht).elim
  have hleast : IsLeast {p | gapped.Untargeted p} 1 := Program.firstUntargeted?_eq_some.mp (by rfl)
  have hnear : ∀ pc, "near" ∉ gapped.labelsAt pc := by
    rw [← not_exists, ← Program.hasLabel_iff]
    decide
  have hvalid : ∀ pc, ¬ (bypass 2 inside).Untargeted pc := by
    intro pc hpc
    have hlt : pc < 2 := hpc.lt_size
    have hcases : pc = 0 ∨ pc = 1 := by omega
    rcases hcases with rfl | rfl <;> cases hpc.2
  obtain ⟨_, _, hfar, _⟩ := checkReach_error_iff gapped "far" {} {}
  obtain ⟨_, hunknown, _, _⟩ := checkReach_error_iff gapped "near" {} {}
  have hparse : Program.parse "[_in_]" = .ok (bypass 2 inside) := by rfl
  obtain ⟨_, _, _, hsearch⟩ := checkReach_error_iff (bypass 2 inside) "in" {} {}
  obtain ⟨target, htarget, _, _, hends⟩ :=
    hsearch (Program.inRange_of_parse hparse) ⟨1, by decide⟩ hvalid
  refine ⟨fun s hs => ?_, hfar ⟨7, by decide⟩ 1 hleast, hunknown hnear, hparse, target, htarget,
    hends⟩
  rcases hreachable s hs with rfl | rfl
  · exact Nat.zero_ne_one
  · exact fun h => nomatch h

end TapeReach
