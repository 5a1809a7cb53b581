import TapeReach.Lasso.Report
import TapeReach.Proofs.Counterexample

/-!
# Positions at the greatest word

Positions are words of 64 bits. A run comes to a position from the
instruction before it or by a jump, so the position behind the one of a state
is a word too, unless a jump has led to the greatest word of all. There the
run has halted, but its successors are not known: they are asked for the next
position before they are asked for the instruction, and a check that comes
there fails. So no counterexample goes through such a state, every
counterexample has a report, and the report of one whose last state has
halted shows no instructions behind it.
-/

namespace TapeReach

namespace Report

/-- There are instructions among the pieces. -/
def HasCode (pieces : List Piece) : Prop := ∃ symbols, Piece.code symbols ∈ pieces

variable {program : Program} {label : String} {pc : Nat}

/-- Gathered instructions are a piece unless there are none. -/
theorem hasCode_codePiece {code : List Char} : HasCode (codePiece code) ↔ code ≠ [] := by
  cases code with
  | nil => simp only [HasCode, codePiece, List.not_mem_nil, exists_false, ne_eq, not_true_eq_false]
  | cons c rest => exact iff_of_true ⟨_, List.mem_singleton_self _⟩ (List.cons_ne_nil c rest)

/-- Among pieces around a label there are instructions if there are some on a side of it. -/
theorem hasCode_append_label {before after : List Piece} :
    HasCode (before ++ .label label :: after) ↔ HasCode before ∨ HasCode after := by
  simp only [HasCode, List.mem_append, List.mem_cons, reduceCtorEq, false_or, exists_or]

/-- A position has a symbol if it is that of an instruction. -/
theorem symbolAt_ne_nil_iff :
    (program.instructionAt? pc).toList.map Instruction.symbol ≠ [] ↔ pc < program.size := by
  rw [ne_eq, List.map_eq_nil_iff, Option.toList_eq_nil_iff, Program.instructionAt?,
    Array.getElem?_eq_none_iff, Nat.not_le]
  rfl

/-- The pieces of some positions have instructions if some were gathered before or one of
the positions is that of an instruction. -/
theorem hasCode_piecesFrom {code : List Char} {positions : List Nat} :
    HasCode (piecesFrom program label code positions) ↔
      code ≠ [] ∨ ∃ pc ∈ positions, pc < program.size := by
  -- Along the positions the gathered symbols either grow or are put out at a label.
  induction positions generalizing code with
  | nil => simp only [piecesFrom, hasCode_codePiece, List.not_mem_nil, false_and, exists_false,
      or_false]
  | cons pc rest ih =>
    rw [List.exists_mem_cons_iff, ← @symbolAt_ne_nil_iff program pc]
    simp only [piecesFrom]
    split
    · rw [hasCode_append_label, hasCode_codePiece, ih]
    · rw [ih, ne_eq, List.append_eq_nil_iff, not_and_or, ← or_assoc, or_comm (a := code ≠ [])]

/-- The positions from one on have an instruction if the first one has. -/
theorem exists_mem_positionsFrom {start : Nat} :
    (∃ pc ∈ positionsFrom program start, pc < program.size) ↔ start < program.size := by
  constructor
  · rintro ⟨pc, hmem, hpc⟩
    exact Nat.lt_of_le_of_lt (List.mem_range'_1.mp hmem).1 hpc
  · intro hstart
    exact ⟨start, List.mem_range'_1.mpr ⟨Nat.le_refl _, by omega⟩, hstart⟩

/-- A lasso has a report if some position follows its last state. -/
theorem ofLasso_eq {lasso : Lasso State} {last : State}
    (hlast : lasso.cycle.getLast? = some last) (hnext : program.HasNext last.pc) :
    ofLasso program lasso label = .ok
      { label := label
        lasso := lasso
        stem := symbols program lasso.stem
        cycle := symbols program lasso.cycle
        continuation := piecesFrom program label [] (positionsFrom program (last.pc + 1)) } := by
  rw [ofLasso, continuationOf, hlast]
  simp only [Program.nextPosition_eq_ok.mpr ⟨hnext, rfl⟩]
  rfl

/-- The program from a position on has instructions if the position is that of one. -/
theorem hasCode_positionsFrom {start : Nat} :
    HasCode (piecesFrom program label [] (positionsFrom program start)) ↔
      start < program.size := by
  simp only [hasCode_piecesFrom, exists_mem_positionsFrom, ne_eq, not_true_eq_false, false_or]

end Report

namespace Program

/-- Some bracket jumps to the position. -/
def JumpsTo (program : Program) (pc : Nat) : Prop :=
  ∃ p i, program.instructionAt? p = some i ∧ i.isJump = true ∧ program.jumpTarget? p = some pc

variable {program : Program} {io : InputModel} {s t : State}

/-- A transition leads to a position within the program or at its end, unless it jumps. -/
theorem Transition.pc_le_or_jumpsTo (h : Transition program io s t) :
    t.pc ≤ program.size ∨ program.JumpsTo t.pc := by
  cases h with
  | left hi | right hi | increment hi | decrement hi | read hi | write hi | pass hi =>
    exact .inl (next_le_size hi)
  | jump hi hc ht =>
    refine .inr ⟨s.pc, _, hi, ?_, ht⟩
    rcases hc with ⟨rfl, _⟩ | ⟨rfl, _⟩ <;> rfl

/-- A run is within the program or at its end, unless it has just jumped. -/
theorem pc_le_or_jumpsTo (h : (program.stateSpace io).Reachable s) :
    s.pc ≤ program.size ∨ program.JumpsTo s.pc := by
  cases h with
  | initial => exact .inl (Nat.zero_le _)
  | next _ hst => exact (transition_of_leads hst).pc_le_or_jumpsTo

/-- In a program of words the position behind the one of a reachable state is a word, unless
a jump has led to the greatest word. -/
theorem succ_pc_lt_or_greatest (hsize : program.size + 1 < UInt64.size)
    (hwords : ∀ p target, program.jumpTarget? p = some target → target < UInt64.size)
    (h : (program.stateSpace io).Reachable s) :
    s.pc + 1 < UInt64.size ∨ s.pc + 1 = UInt64.size ∧ program.JumpsTo s.pc := by
  rcases pc_le_or_jumpsTo h with hle | hjump
  · exact .inl (by omega)
  · have hword : s.pc < UInt64.size := by
      obtain ⟨p, _, _, _, ht⟩ := hjump
      exact hwords p s.pc ht
    rcases Nat.lt_or_eq_of_le hword with hlt | heq
    · exact .inl hlt
    · exact .inr ⟨heq, hjump⟩

/-- In a program of words the successors of a reachable state end in an overflow at the
greatest word only. -/
theorem successors_eq_overflow_iff (hsize : program.size + 1 < UInt64.size)
    (h : (program.stateSpace io).Reachable s) :
    program.successors io s = .error .overflow ↔ UInt64.size ≤ s.pc + 1 := by
  constructor
  · intro herror
    by_contra hlt
    exact not_overflows h (.inr (Nat.lt_of_not_le hlt)) (overflows_of_error herror)
  · intro hgreatest
    have hoverflows : program.Overflows s := by
      refine .inl ?_
      rintro (hle | hlt) <;> omega
    exact hoverflows.successors_eq io

/-- Neither the label nor the jump table is a reason for an overflow. -/
theorem checkTarget_ne_overflow (program : Program) (label : String) :
    program.checkTarget label ≠ .error .overflow := by
  intro h
  rw [checkTarget] at h
  by_cases hlabel : label ∈ program.propositions
  · rw [Labeling.target_eq hlabel] at h
    cases hfirst : program.firstUntargeted? <;> rw [validate, hfirst] at h <;> cases h
  · rw [Labeling.target_of_not_mem hlabel] at h
    cases h

/-- A check that ends in an overflow has begun its search. -/
theorem exists_search_of_overflow {label : String} {settings : Settings} {polls : Polls}
    (h : checkReach program label settings polls = .error .overflow) :
    ∃ target, (program.search target settings polls).verdict = .error .overflow := by
  cases hcheck : program.checkTarget label with
  | error e =>
    rw [checkReach, hcheck] at h
    cases h
    exact absurd hcheck (checkTarget_ne_overflow program label)
  | ok target =>
    refine ⟨target, ?_⟩
    cases hverdict : (program.search target settings polls).verdict with
    | error e =>
      rw [checkReach_of_failure hcheck hverdict] at h
      cases h
      rfl
    | ok verdict =>
      rw [checkReach_of_search hcheck hverdict] at h
      cases h

/-- A check of a program of words ends in an overflow only if a jump leads to the greatest
word. -/
theorem jumpsTo_of_overflow (hsize : program.size + 1 < UInt64.size)
    (hwords : ∀ p target, program.jumpTarget? p = some target → target < UInt64.size)
    {label : String} {settings : Settings} {polls : Polls}
    (h : checkReach program label settings polls = .error .overflow) :
    program.JumpsTo (UInt64.size - 1) := by
  obtain ⟨target, hverdict⟩ := exists_search_of_overflow h
  obtain ⟨s, hs, hunknown⟩ :=
    (program.search_endsWithin target settings polls).exists_unknown hverdict
  have hgreatest := (successors_eq_overflow_iff hsize hs.reachable).mp hunknown
  rcases succ_pc_lt_or_greatest hsize hwords hs.reachable with hlt | ⟨heq, hjump⟩
  · omega
  · rwa [Nat.eq_sub_of_add_eq heq] at hjump

/-- The states of a counterexample have known successors, so another position follows. -/
theorem hasNext_of_refutes {lasso : Lasso State} {isTarget : State → Bool}
    (h : lasso.Refutes (program.stateSpace io) isTarget) (hs : s ∈ lasso.states) :
    program.HasNext s.pc := by
  rcases h.leads_or_stops hs with ⟨_, _, _, hnext, _⟩ | hstuck
  · exact hasNext_of_ok hnext
  · exact hasNext_of_ok hstuck

end Program

/-- Let the size of a program and its jump targets be words. Then the position behind the
one of a reachable state is a word too, unless a jump has led to the greatest word, and
exactly there the successors end in an overflow. So does a check, but only if a jump leads to
the greatest word. If it gives a counterexample, then the positions behind all its states are
words, it has a report, and if its last state has halted, then the report shows no
instructions behind it. -/
theorem Program.in_range_unless_greatest {program : Program}
    (hsize : program.size + 1 < UInt64.size)
    (hwords : ∀ p target, program.jumpTarget? p = some target → target < UInt64.size) :
    (∀ io s, (program.stateSpace io).Reachable s →
      (s.pc + 1 < UInt64.size ∨ s.pc + 1 = UInt64.size ∧ program.JumpsTo s.pc) ∧
      (program.successors io s = .error .overflow ↔ s.pc + 1 = UInt64.size)) ∧
    ∀ label settings polls,
      (checkReach program label settings polls = .error .overflow →
        program.JumpsTo (UInt64.size - 1)) ∧
      ∀ analysis lasso, checkReach program label settings polls = .ok analysis →
        analysis.verdict = .counterexample lasso →
        (∀ s ∈ lasso.states, s.pc + 1 < UInt64.size) ∧
        ∃ last report, lasso.cycle.getLast? = some last ∧
          Report.ofLasso program lasso label = .ok report ∧
          (program.size ≤ last.pc → ¬ Report.HasCode report.continuation) := by
  refine ⟨fun io s hs => ⟨succ_pc_lt_or_greatest hsize hwords hs, ?_⟩, fun label settings polls =>
    ⟨jumpsTo_of_overflow hsize hwords, fun analysis lasso h hverdict => ?_⟩⟩
  · rw [successors_eq_overflow_iff hsize hs]
    have hrange := succ_pc_lt_or_greatest hsize hwords hs
    omega
  · obtain ⟨target, _, hlasso⟩ := refutes_of_checkReach h hverdict
    have hlast := List.getLast?_eq_some_getLast hlasso.cycleNonempty
    have hmem := List.mem_append_right lasso.stem (List.getLast_mem hlasso.cycleNonempty)
    refine ⟨fun s hs => ?_, _, _, hlast, Report.ofLasso_eq hlast (hasNext_of_refutes hlasso hmem),
      fun hhalted => ?_⟩
    · rcases hasNext_of_refutes hlasso hs with hle | hlt
      · omega
      · exact hlt
    · rw [Report.hasCode_positionsFrom]
      omega

/-- A search that comes to a state whose successors are not known. -/
theorem Search.endsWithin_failure {σ ε : Type} [BEq σ] [Hashable σ] [LawfulBEq σ]
    {system : TransitionSystem σ ε} {isTarget : σ → Bool} {s : σ} {e : ε}
    (hinitial : system.successors system.initial = .ok [s]) (hs : system.successors s = .error e)
    (hfirst : isTarget system.initial = false) (hlast : isTarget s = false)
    (hne : system.initial ≠ s) :
    EndsWithin system isTarget {} {} 1 ⟨.error e, ⟨1, 2, 1⟩⟩ := by
  refine .inr ⟨_, start_of_ne hfirst hinitial (List.cons_ne_nil _ _), ?_⟩
  refine (Loop.iterate_succ_of_more rfl).trans
    (step_failed rfl rfl hlast ?_ Std.HashSet.not_mem_empty rfl hs)
  simp [hne]

/-- A jump past a loop to the greatest word is accepted, and the check that follows it ends in
an overflow. -/
theorem bypass_overflows :
    (bypass (UInt64.size - 1) inside).validate = .ok () ∧
      checkReach (bypass (UInt64.size - 1) inside) "in" {} {} = .error .overflow := by
  have hvalid : (bypass (UInt64.size - 1) inside).validate = .ok () := by rfl
  have hlanding : 2 ≤ UInt64.size - 1 := by decide
  obtain ⟨target, hcheck, hfirst, hlast⟩ := exists_target_bypass hvalid hlanding
  have hunknown : ((bypass (UInt64.size - 1) inside).stateSpace {}).successors
      ((State.initial none).jump (UInt64.size - 1)) = .error .overflow := by
    refine Program.Overflows.successors_eq (.inl ?_) {}
    rintro (hle | hlt)
    · exact absurd hle (by decide)
    · exact absurd hlt (by decide)
  have hends : Search.EndsWithin ((bypass (UInt64.size - 1) inside).stateSpace {}) target.holds
      {} {} 1 ⟨.error .overflow, ⟨1, 2, 1⟩⟩ :=
    Search.endsWithin_failure rfl hunknown hfirst hlast (initial_ne_jump hlanding)
  have hsearch : (bypass (UInt64.size - 1) inside).search target {} {} =
      ⟨.error .overflow, ⟨1, 2, 1⟩⟩ := Program.search_eq_of_endsWithin hends (by decide)
  exact ⟨hvalid, checkReach_of_failure hcheck (by rw [hsearch])⟩

/-- With the word before it as the position to jump to, the check gives the run past the loop,
and its report shows no instructions behind the state that has halted. -/
theorem bypass_in_range_unless_greatest :
    (bypass (UInt64.size - 2) inside).validate = .ok () ∧
      checkReach (bypass (UInt64.size - 2) inside) "in" {} {} =
        .ok ⟨.counterexample (bypassLasso (UInt64.size - 2)), ⟨2, 2, 1⟩⟩ ∧
      ∃ report,
        Report.ofLasso (bypass (UInt64.size - 2) inside) (bypassLasso (UInt64.size - 2)) "in" =
          .ok report ∧
        ¬ Report.HasCode report.continuation := by
  have hvalid : (bypass (UInt64.size - 2) inside).validate = .ok () := by rfl
  have hwords : ∀ p target, (bypass (UInt64.size - 2) inside).jumpTarget? p = some target →
      target < UInt64.size := by
    intro p target ht
    have hmem : (p, target) ∈ [(0, UInt64.size - 2), (1, 1)] := mem_of_getElem?_ofList ht
    have hsize : 2 < UInt64.size := by decide
    simp only [List.mem_cons, Prod.mk.injEq, List.not_mem_nil, or_false] at hmem
    omega
  have hpast := checkReach_bypass hvalid (by decide) (by decide)
  obtain ⟨_, hchecks⟩ := Program.in_range_unless_greatest (by decide) hwords
  obtain ⟨_, last, report, hlast, hreport, hnone⟩ := (hchecks "in" {} {}).2 _ _ hpast rfl
  cases hlast
  exact ⟨hvalid, hpast, report, hreport, hnone (by decide)⟩

end TapeReach
