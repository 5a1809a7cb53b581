import TapeReach.Proofs.Counterexample

/-!
# Smaller and larger budgets

Two configurations that agree in position and tape may differ in the reads
they have left. Where exhausted input gives a byte, the one with fewer reads
left can do nothing that the other cannot: while both have reads left they may
find the same bytes, and the byte for exhausted input is among the bytes of
every read. So what no run can miss with a budget, no run can miss with a
smaller one, although the two budgets run out at different reads.

Where exhausted input blocks, it is the other way round. A run that reads on
behind the smaller budget passes a state in which the run with that budget
stops for good, so a target that the smaller budget cannot miss was met before.
-/

namespace TapeReach

namespace State

/-- The first state has the configuration of the second and no more reads left. -/
structure Within (t s : State) : Prop where
  /-- Both are at the same position. -/
  pc : t.pc = s.pc
  /-- Both have the same current cell. -/
  pointer : t.pointer = s.pointer
  /-- Both have the same memory. -/
  cells : t.cells = s.cells
  /-- The budget is at most that of the second state. -/
  reads : ∀ m, s.readsLeft = some m → ∃ n, t.readsLeft = some n ∧ n ≤ m

variable {s t : State}

/-- Every smaller budget starts with fewer reads left. -/
theorem within_initial {small large : Option Nat}
    (h : ∀ m, large = some m → ∃ n, small = some n ∧ n ≤ m) :
    (initial small).Within (initial large) :=
  ⟨rfl, rfl, rfl, h⟩

/-- Both have the same value in the current cell. -/
theorem Within.current (h : t.Within s) : t.current = s.current := by
  simp only [State.current, cell, h.cells, h.pointer]

/-- Both go to another position of the program and of the tape. -/
theorem Within.move (h : t.Within s) (pc pointer : Nat) :
    (t.move pc pointer).Within (s.move pc pointer) :=
  ⟨rfl, rfl, h.cells, h.reads⟩

/-- Both go to another position of the program. -/
theorem Within.jump (h : t.Within s) (pc : Nat) : (t.jump pc).Within (s.jump pc) :=
  ⟨rfl, h.pointer, h.cells, h.reads⟩

/-- Both store the same value. -/
theorem Within.write (h : t.Within s) (pc : Nat) (value : UInt8) :
    (t.write pc value).Within (s.write pc value) where
  pc := rfl
  pointer := h.pointer
  cells := by simp only [State.write, store, ofParts, h.cells, h.pointer]
  reads := h.reads

/-- Both find the same byte, which uses up a read of each. -/
theorem Within.receive (h : t.Within s) (pc : Nat) (byte : UInt8) :
    (t.receive pc byte).Within (s.receive pc byte) where
  pc := rfl
  pointer := h.pointer
  cells := by simp only [State.receive, store, ofParts, h.cells, h.pointer]
  reads m hm := by
    change s.readsLeft.map (· - 1) = some m at hm
    obtain ⟨k, hk, rfl⟩ := Option.map_eq_some_iff.mp hm
    obtain ⟨n, hn, hle⟩ := h.reads k hk
    refine ⟨n - 1, ?_, by omega⟩
    change t.readsLeft.map (· - 1) = some (n - 1)
    rw [hn, Option.map_some]

end State

namespace Program

variable {program : Program} {io : InputModel} {s t : State}

/-- A read with fewer reads left finds no other bytes. -/
theorem possibleReads_within (h : t.Within s) {byte : UInt8}
    (hb : byte ∈ (io.possibleReads t.readsLeft).toList) :
    byte ∈ (io.possibleReads s.readsLeft).toList := by
  by_cases hs : s.readsLeft = some 0
  · obtain ⟨n, hn, hle⟩ := h.reads 0 hs
    have hzero : n = 0 := by omega
    rw [hs]
    rwa [hn, hzero] at hb
  · rw [InputModel.possibleReads_eq_any hs]
    exact PossibleReads.mem_any byte

/-- A bracket leads both to the same position, or has no target for either. -/
theorem branch_within (h : t.Within s) (pc : Nat) (taken : Bool) :
    (∃ s' t', (program.branch s pc taken).map ([·]) = .ok [s'] ∧
        (program.branch t pc taken).map ([·]) = .ok [t'] ∧ t'.Within s') ∨
      ∃ err, (program.branch s pc taken).map ([·]) = .error err ∧
        (program.branch t pc taken).map ([·]) = .error err := by
  cases taken with
  | false => exact .inl ⟨_, _, rfl, rfl, h.jump pc⟩
  | true =>
    cases htarget : program.jumpTarget? s.pc with
    | none =>
      refine .inr ⟨.malformedJumpTable s.pc, ?_, ?_⟩
      · simp only [branch, htarget, if_true, Except.map]
      · simp only [branch, h.pc, htarget, if_true, Except.map]
    | some target =>
      refine .inl ⟨_, _, ?_, ?_, h.jump target⟩
      · simp only [branch, htarget, if_true, Except.map]
      · simp only [branch, h.pc, htarget, if_true, Except.map]

/-- An instruction other than a read leads both to one state each, or neither to any. -/
theorem perform_within_single (program : Program) (io : InputModel) (h : t.Within s) (pc : Nat)
    {i : Instruction} (hi : i ≠ .read) :
    (∃ s' t', program.perform io s pc i = .ok [s'] ∧ program.perform io t pc i = .ok [t'] ∧
        t'.Within s') ∨
      ∃ err, program.perform io s pc i = .error err ∧ program.perform io t pc i = .error err := by
  have hcurrent := h.current
  cases i with
  | moveLeft =>
    have hleft : t.leftPointer = s.leftPointer := by simp only [State.leftPointer, h.pointer]
    exact .inl ⟨_, _, rfl, rfl, hleft ▸ h.move _ _⟩
  | moveRight =>
    have hright : t.rightPointer = s.rightPointer := by simp only [State.rightPointer, h.pointer]
    rw [perform, perform, hright]
    cases s.rightPointer with
    | error err => exact .inr ⟨err, rfl, rfl⟩
    | ok right => exact .inl ⟨_, _, rfl, rfl, h.move pc right⟩
  | increment => exact .inl ⟨_, _, rfl, rfl, hcurrent ▸ h.write _ _⟩
  | decrement => exact .inl ⟨_, _, rfl, rfl, hcurrent ▸ h.write _ _⟩
  | read => exact absurd rfl hi
  | write => exact .inl ⟨_, _, rfl, rfl, h.jump pc⟩
  | jumpIfZero =>
    rw [perform, perform, hcurrent]
    exact branch_within h pc _
  | jumpIfNonZero =>
    rw [perform, perform, hcurrent]
    exact branch_within h pc _

/-- Each state behind an instruction with fewer reads left is within one with more. -/
theorem perform_within (hio : io.noChangeOnEof = false) (h : t.Within s) {pc : Nat}
    {i : Instruction} {next : List State} (hnext : program.perform io s pc i = .ok next) :
    ∃ next', program.perform io t pc i = .ok next' ∧ next' ≠ [] ∧
      ∀ t' ∈ next', ∃ s' ∈ next, t'.Within s' := by
  by_cases hi : i = .read
  · subst hi
    cases hnext
    refine ⟨_, rfl, ?_, fun t' ht' => ?_⟩
    · rw [ne_eq, List.map_eq_nil_iff]
      exact List.ne_nil_of_mem (InputModel.eofByte_mem hio t.readsLeft)
    · obtain ⟨byte, hb, rfl⟩ := List.mem_map.mp ht'
      have hmem := List.mem_map_of_mem (f := s.receive pc) (possibleReads_within h hb)
      exact ⟨_, hmem, h.receive pc byte⟩
  · rcases perform_within_single program io h pc hi with
      ⟨s', t', hs', ht', hwithin⟩ | ⟨err, herr, _⟩
    · rw [hs', Except.ok.injEq] at hnext
      refine ⟨[t'], ht', List.cons_ne_nil _ _, fun u hu => ⟨s', ?_, ?_⟩⟩
      · exact hnext ▸ List.mem_cons_self
      · exact List.mem_singleton.mp hu ▸ hwithin
    · rw [herr] at hnext
      cases hnext

/-- Where exhausted input blocks, an instruction that goes on with fewer reads left goes on
with more, and each state it then leads to has one within it. -/
theorem perform_beyond (hio : io.noChangeOnEof = true) (h : s.Within t) {pc : Nat}
    {i : Instruction} {next : List State} (hnext : program.perform io s pc i = .ok next)
    (hne : next ≠ []) :
    ∃ next', program.perform io t pc i = .ok next' ∧ next' ≠ [] ∧
      ∀ t' ∈ next', ∃ s' ∈ next, s'.Within t' := by
  by_cases hi : i = .read
  · subst hi
    cases hnext
    -- The read with fewer reads left is not blocked, so it may find every byte.
    have hopen : ∀ byte, byte ∈ (io.possibleReads s.readsLeft).toList :=
      InputModel.mem_of_not_blocked hio fun hnil => hne (by rw [hnil, List.map_nil])
    refine ⟨_, rfl, ?_, fun t' ht' => ?_⟩
    · rw [ne_eq, List.map_eq_nil_iff]
      exact List.ne_nil_of_mem (possibleReads_within h (hopen 0))
    · obtain ⟨byte, _, rfl⟩ := List.mem_map.mp ht'
      have hmem := List.mem_map_of_mem (f := s.receive pc) (hopen byte)
      exact ⟨_, hmem, h.receive pc byte⟩
  · rcases perform_within_single program io h pc hi with
      ⟨t', s', ht', hs', hwithin⟩ | ⟨err, _, herr⟩
    · rw [hs', Except.ok.injEq] at hnext
      refine ⟨[t'], ht', List.cons_ne_nil _ _, fun u hu => ⟨s', ?_, ?_⟩⟩
      · exact hnext ▸ List.mem_cons_self
      · exact List.mem_singleton.mp hu ▸ hwithin
    · rw [herr] at hnext
      cases hnext

/-- The state space does not depend on the budget but for its initial state. -/
theorem successors_of_budget (program : Program) (io : InputModel) (budget : Option Nat)
    (s : State) :
    program.successors { io with maxReads := budget } s = program.successors io s := by
  rfl

/-- A target that no run can miss with a budget cannot be missed with a smaller one. -/
theorem inevitable_of_smaller_budget (hio : io.noChangeOnEof = false) {target : Target}
    {budget : Option Nat} (hbudget : ∀ m, io.maxReads = some m → ∃ n, budget = some n ∧ n ≤ m)
    (h : (program.stateSpace io).Inevitable target.holds (program.stateSpace io).initial) :
    (program.stateSpace { io with maxReads := budget }).Inevitable target.holds
      (program.stateSpace { io with maxReads := budget }).initial := by
  refine h.of_related (R := fun s t => t.Within s) ?_ ?_ (State.within_initial hbudget)
  · intro s t hst hs
    rw [Target.holds, hst.pc]
    exact hs
  · intro s t next hst hnext hne
    change program.successors io s = .ok next at hnext
    change ∃ next', program.successors _ t = .ok next' ∧ _
    rw [successors_of_budget]
    cases hi : program.instructionAt? s.pc with
    | none => exact absurd (eq_nil_of_halted hi hnext) hne
    | some i =>
      rw [successors_of_instruction hi] at hnext
      rw [successors_of_instruction (hst.pc ▸ hi), hst.pc]
      exact perform_within hio hst hnext

/-- Where exhausted input blocks, a target that no run can miss with a budget cannot be
missed with a larger one. -/
theorem inevitable_of_larger_budget (hio : io.noChangeOnEof = true) {target : Target}
    {budget : Option Nat} (hbudget : ∀ m, budget = some m → ∃ n, io.maxReads = some n ∧ n ≤ m)
    (h : (program.stateSpace io).Inevitable target.holds (program.stateSpace io).initial) :
    (program.stateSpace { io with maxReads := budget }).Inevitable target.holds
      (program.stateSpace { io with maxReads := budget }).initial := by
  refine h.of_related (R := fun s t => s.Within t) ?_ ?_ (State.within_initial hbudget)
  · intro s t hst hs
    rw [Target.holds, ← hst.pc]
    exact hs
  · intro s t next hst hnext hne
    change program.successors io s = .ok next at hnext
    change ∃ next', program.successors _ t = .ok next' ∧ _
    rw [successors_of_budget]
    cases hi : program.instructionAt? s.pc with
    | none => exact absurd (eq_nil_of_halted hi hnext) hne
    | some i =>
      rw [successors_of_instruction hi] at hnext
      rw [successors_of_instruction (hst.pc ▸ hi), ← hst.pc]
      exact perform_beyond hio hst hnext hne

end Program

section Check

variable {program : Program} {label : String} {settings : Settings} {polls : Polls}

/-- A check without limits finds its target inevitable or refutes it, if the successors of the
states that avoid the target are known. -/
theorem checkReach_decides {target : Target} (hcheck : program.checkTarget label = .ok target)
    (hknown : ∀ s, (program.stateSpace settings.io).Avoids target.holds s →
      ∃ next, (program.stateSpace settings.io).successors s = .ok next)
    (hstates : settings.maxStates = none) (htime : settings.timeLimit = none)
    (hcancel : ∀ n, polls.cancelled n = false) :
    ∃ analysis, checkReach program label settings polls = .ok analysis ∧
      (analysis.verdict = .unavoidable ∧
          (program.stateSpace settings.io).Inevitable target.holds
            (program.stateSpace settings.io).initial ∨
        ∃ lasso, analysis.verdict = .counterexample lasso ∧
          lasso.Refutes (program.stateSpace settings.io) target.holds) := by
  obtain ⟨htarget, _⟩ := Program.checkTarget_eq_ok.mp hcheck
  obtain ⟨analysis, hanalysis, hsearch, hdefinite⟩ :=
    exists_checkReach_of_known hcheck hknown hstates htime hcancel
  refine ⟨analysis, hanalysis, ?_⟩
  rcases hdefinite with hverdict | ⟨lasso, hverdict⟩
  · have hrun : (program.search target settings polls).verdict = .ok .unavoidable := by
      rw [hsearch, hverdict]
    exact .inl ⟨hverdict, Search.inevitable_of_unavoidable hrun⟩
  · obtain ⟨target', htarget', hrefutes⟩ := refutes_of_checkReach hanalysis hverdict
    rw [htarget] at htarget'
    cases htarget'
    exact .inr ⟨lasso, hverdict, hrefutes⟩

/-- A check without limits calls a label unavoidable if its target is inevitable. -/
theorem checkReach_of_inevitable {target : Target}
    (hcheck : program.checkTarget label = .ok target) (hstates : settings.maxStates = none)
    (htime : settings.timeLimit = none) (hcancel : ∀ n, polls.cancelled n = false)
    (h : (program.stateSpace settings.io).Inevitable target.holds
      (program.stateSpace settings.io).initial) :
    ∃ analysis, checkReach program label settings polls = .ok analysis ∧
      analysis.verdict = .unavoidable := by
  have hknown : ∀ s, (program.stateSpace settings.io).Avoids target.holds s →
      ∃ next, (program.stateSpace settings.io).successors s = .ok next := by
    intro s hs
    obtain ⟨next, hnext, _⟩ := (hs.inevitable h).exists_next hs.not_target
    exact ⟨next, hnext⟩
  obtain ⟨analysis, hanalysis, ⟨hverdict, _⟩ | ⟨lasso, _, hrefutes⟩⟩ :=
    checkReach_decides hcheck hknown hstates htime hcancel
  · exact ⟨analysis, hanalysis, hverdict⟩
  · exact absurd h hrefutes.not_inevitable_initial

/-- Where exhausted input gives a byte, a label that a check calls unavoidable with some
budget of reads, or with an unlimited one, is unavoidable with every smaller budget. -/
theorem checkReach_smaller_budget {analysis : Analysis} {n : Nat}
    (hio : settings.io.noChangeOnEof = false) (hstates : settings.maxStates = none)
    (htime : settings.timeLimit = none) (hcancel : ∀ k, polls.cancelled k = false)
    (h : checkReach program label settings polls = .ok analysis)
    (hverdict : analysis.verdict = .unavoidable)
    (hn : ∀ m, settings.io.maxReads = some m → n ≤ m) :
    ∃ smaller, checkReach program label
        { settings with io := { settings.io with maxReads := some n } } polls = .ok smaller ∧
      smaller.verdict = .unavoidable := by
  obtain ⟨target, hcheck, hsearch⟩ := checkReach_eq_ok.mp h
  have hrun : (program.search target settings polls).verdict = .ok .unavoidable := by
    rw [hsearch, hverdict]
  have hinevitable := Search.inevitable_of_unavoidable hrun
  have hsmaller := Program.inevitable_of_smaller_budget hio
    (fun m hm => ⟨n, rfl, hn m hm⟩) hinevitable
  exact checkReach_of_inevitable hcheck hstates htime hcancel hsmaller

/-- Whatever byte is read, the end follows. -/
theorem echo_inevitable {target : Target} (hcheck : echo.checkTarget "end" = .ok target) :
    (echo.stateSpace {}).Inevitable target.holds (echo.stateSpace {}).initial := by
  have hend : target.holdsAt 2 = true :=
    Labeling.target_holdsAt_of_mem (Program.checkTarget_eq_ok.mp hcheck).1 (by decide) (by decide)
  have hread : (echo.stateSpace {}).successors (echo.stateSpace {}).initial =
      .ok (PossibleReads.any.toList.map ((State.initial none).receive 1)) := rfl
  have hsome : PossibleReads.any.toList.map ((State.initial none).receive 1) ≠ [] :=
    List.ne_nil_of_mem (List.mem_map_of_mem (PossibleReads.mem_any 0))
  refine .next hread hsome fun s hs => ?_
  obtain ⟨byte, _, rfl⟩ := List.mem_map.mp hs
  have hwrite : (echo.stateSpace {}).successors ((State.initial none).receive 1 byte) =
      .ok [((State.initial none).receive 1 byte).jump 2] := rfl
  refine .next hwrite (List.cons_ne_nil _ _) fun t ht => .here ?_
  rw [List.mem_singleton.mp ht]
  exact hend

/-- The end of the echo is unavoidable with unlimited input, and hence with three bytes. -/
theorem echo_smaller_budget :
    Program.parse ",._end_" = .ok echo ∧
      ∃ unlimited three, checkReach echo "end" {} {} = .ok unlimited ∧
        unlimited.verdict = .unavoidable ∧
        checkReach echo "end" { io := { maxReads := some 3 } } {} = .ok three ∧
        three.verdict = .unavoidable := by
  have hvalid : echo.validate = .ok () := by rfl
  have hlabel : echo.hasLabel "end" = true := by rfl
  have hcancel : ∀ k, ({} : Polls).cancelled k = false := fun _ => rfl
  have hbudget : ∀ m, ({} : Settings).io.maxReads = some m → 3 ≤ m := by
    intro m hm
    cases hm
  obtain ⟨target, hcheck⟩ := Program.exists_checkTarget hvalid hlabel
  obtain ⟨unlimited, hunlimited, hverdict⟩ : ∃ analysis,
      checkReach echo "end" {} {} = .ok analysis ∧ analysis.verdict = .unavoidable :=
    checkReach_of_inevitable hcheck rfl rfl hcancel (echo_inevitable hcheck)
  obtain ⟨three, hthree, hverdict'⟩ :=
    checkReach_smaller_budget rfl rfl rfl hcancel hunlimited hverdict hbudget
  exact ⟨by rfl, unlimited, three, hunlimited, hverdict, hthree, hverdict'⟩

/-- Where exhausted input blocks, a label that a check calls unavoidable with some budget of
reads is unavoidable with every larger budget, and with an unlimited one. -/
theorem checkReach_larger_budget {analysis : Analysis} {budget : Option Nat}
    (hio : settings.io.noChangeOnEof = true) (hstates : settings.maxStates = none)
    (htime : settings.timeLimit = none) (hcancel : ∀ k, polls.cancelled k = false)
    (h : checkReach program label settings polls = .ok analysis)
    (hverdict : analysis.verdict = .unavoidable)
    (hbudget : ∀ m, budget = some m → ∃ n, settings.io.maxReads = some n ∧ n ≤ m) :
    ∃ larger, checkReach program label
        { settings with io := { settings.io with maxReads := budget } } polls = .ok larger ∧
      larger.verdict = .unavoidable := by
  obtain ⟨target, hcheck, hsearch⟩ := checkReach_eq_ok.mp h
  have hrun : (program.search target settings polls).verdict = .ok .unavoidable := by
    rw [hsearch, hverdict]
  have hinevitable := Search.inevitable_of_unavoidable hrun
  have hlarger := Program.inevitable_of_larger_budget hio hbudget hinevitable
  exact checkReach_of_inevitable hcheck hstates htime hcancel hlarger

/-- Read a byte, pass a label and read another. -/
def knocking : Program := .ofTables [.read, .read] [] [(1, ["answered"])]

/-- One byte may be read, and the next read blocks. -/
def oneByte : Settings := { io := { maxReads := some 1, noChangeOnEof := true } }

/-- The label behind the first read is met, although the second read blocks. -/
theorem knocking_inevitable {target : Target}
    (hcheck : knocking.checkTarget "answered" = .ok target) :
    (knocking.stateSpace oneByte.io).Inevitable target.holds
      (knocking.stateSpace oneByte.io).initial := by
  have hmiddle : target.holdsAt 1 = true :=
    Labeling.target_holdsAt_of_mem (Program.checkTarget_eq_ok.mp hcheck).1 (by decide) (by decide)
  have hread : (knocking.stateSpace oneByte.io).successors
      (knocking.stateSpace oneByte.io).initial =
      .ok (PossibleReads.any.toList.map ((State.initial (some 1)).receive 1)) := rfl
  have hsome : PossibleReads.any.toList.map ((State.initial (some 1)).receive 1) ≠ [] :=
    List.ne_nil_of_mem (List.mem_map_of_mem (PossibleReads.mem_any 0))
  refine .next hread hsome fun s hs => .here ?_
  obtain ⟨byte, _, rfl⟩ := List.mem_map.mp hs
  exact hmiddle

/-- The label behind the first read is unavoidable with one byte, and hence with three bytes
and with unlimited input. -/
theorem knocking_larger_budget :
    Program.parse ",_answered_," = .ok knocking ∧
      ∃ one three unlimited, checkReach knocking "answered" oneByte {} = .ok one ∧
        one.verdict = .unavoidable ∧
        checkReach knocking "answered" { io := { maxReads := some 3, noChangeOnEof := true } } {} =
          .ok three ∧
        three.verdict = .unavoidable ∧
        checkReach knocking "answered" { io := { noChangeOnEof := true } } {} = .ok unlimited ∧
        unlimited.verdict = .unavoidable := by
  have hvalid : knocking.validate = .ok () := by rfl
  have hlabel : knocking.hasLabel "answered" = true := by rfl
  have hcancel : ∀ k, ({} : Polls).cancelled k = false := fun _ => rfl
  have hthree : ∀ m, some 3 = some m → ∃ n, oneByte.io.maxReads = some n ∧ n ≤ m := by
    intro m hm
    cases hm
    exact ⟨1, rfl, by decide⟩
  have hunlimited : ∀ m : Nat, none = some m → ∃ n, oneByte.io.maxReads = some n ∧ n ≤ m := by
    intro m hm
    cases hm
  obtain ⟨target, hcheck⟩ := Program.exists_checkTarget hvalid hlabel
  obtain ⟨one, hone, hverdict⟩ : ∃ analysis,
      checkReach knocking "answered" oneByte {} = .ok analysis ∧
        analysis.verdict = .unavoidable :=
    checkReach_of_inevitable hcheck rfl rfl hcancel (knocking_inevitable hcheck)
  obtain ⟨three, h3, hv3⟩ := checkReach_larger_budget rfl rfl rfl hcancel hone hverdict hthree
  obtain ⟨unlimited, hu, hvu⟩ :=
    checkReach_larger_budget rfl rfl rfl hcancel hone hverdict hunlimited
  exact ⟨by rfl, one, three, unlimited, hone, hverdict, h3, hv3, hu, hvu⟩

end Check

end TapeReach
