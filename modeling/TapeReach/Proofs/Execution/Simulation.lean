import TapeReach.Program.Labeling
import TapeReach.Proofs.Execution.Effect
import TapeReach.Proofs.Execution.Tape
import TapeReach.Proofs.State.Transition

/-!
# Runs follow the state space

A concrete run on a finite input is mirrored by a path of the state space. The
two agree in position, tape and output as long as the path goes on. Their
budgets need not agree: a run that meets the end of its input keeps what is
left of its budget, while the state space takes every read for a byte until
its own budget is used up. From there on it knows the end of the input, which
the run has met already.
-/

namespace TapeReach

section Reads

variable {io : InputModel}

/-- Every byte is possible while there are reads left. -/
theorem PossibleReads.mem_any (b : UInt8) : b ∈ PossibleReads.any.toList :=
  List.mem_map.mpr ⟨b.toNat, List.mem_range.mpr b.toNat_lt, UInt8.ofNat_toNat⟩

/-- While there are reads left a read may find every byte. -/
theorem InputModel.possibleReads_eq_any {reads : Option Nat} (h : reads ≠ some 0) :
    io.possibleReads reads = .any := by
  cases reads with
  | none => rfl
  | some n =>
    cases n with
    | zero => exact absurd rfl h
    | succ n => rfl

/-- A read may always find the byte for exhausted input, if there is one. -/
theorem InputModel.eofByte_mem (hio : io.noChangeOnEof = false) (reads : Option Nat) :
    io.eofByte ∈ (io.possibleReads reads).toList := by
  by_cases h : reads = some 0
  · simp only [h, possibleReads, hio, Bool.false_eq_true, if_false, PossibleReads.toList,
      List.mem_singleton]
  · rw [possibleReads_eq_any h]
    exact PossibleReads.mem_any _

/-- Where exhausted input leaves the cell alone, a read that is not blocked may find
every byte. -/
theorem InputModel.mem_of_not_blocked (hio : io.noChangeOnEof = true) {reads : Option Nat}
    (hne : (io.possibleReads reads).toList ≠ []) (b : UInt8) :
    b ∈ (io.possibleReads reads).toList := by
  by_cases h : reads = some 0
  · simp only [h, possibleReads, hio, if_true, PossibleReads.toList, ne_eq, not_true] at hne
  · rw [possibleReads_eq_any h]
    exact PossibleReads.mem_any b

end Reads

namespace Execution

/-- With this input to come, the budget of a run is that of the state, or the input has
ended and the state has no more reads left than the run. -/
def BudgetCovers (input : InputStream) (own reads : Option Nat) : Prop :=
  own = reads ∨ input.answers = [] ∧ ∃ m n, own = some m ∧ reads = some n ∧ n ≤ m

/-- The state describes the run. -/
structure Mirrors (e : Execution) (s : State) : Prop where
  /-- Both are at the same position. -/
  pc : e.pc = s.pc
  /-- Both have the same tape. -/
  tape : e.tape.Mirrors s
  /-- The input consists of bytes. -/
  input : ∃ bytes : List UInt8, e.input.answers = bytes.map .byte
  /-- The output accepts everything. -/
  output : e.output.capacity = none
  /-- The budgets agree until the input has ended. -/
  budget : BudgetCovers e.input e.readsLeft s.readsLeft

/-- A run at its start is described by the initial state. -/
theorem mirrors_start (io : InputModel) (bytes : List UInt8) {output : OutputStream}
    (houtput : output.capacity = none) :
    (start io (.blank {}) (.ofBytes bytes) output).Mirrors (.initial io.maxReads) where
  pc := rfl
  tape := Tape.mirrors_blank _
  input := ⟨bytes, rfl⟩
  output := houtput
  budget := .inl rfl

variable {program : Program} {io : InputModel} {e : Execution} {s : State}

/-- A run that goes on without a read is described by a state that goes on alike. -/
theorem Mirrors.advance (h : e.Mirrors s) {tape : Tape} {t : State} (htape : tape.Mirrors t)
    (hpc : t.pc = s.pc + 1) (hreads : t.readsLeft = s.readsLeft) : (e.advance tape).Mirrors t where
  pc := by
    rw [hpc, ← h.pc]
    rfl
  tape := htape
  input := h.input
  output := h.output
  budget := hreads ▸ h.budget

/-- A state has no reads left when the run has none. -/
theorem BudgetCovers.spent {input : InputStream} {own reads : Option Nat}
    (h : BudgetCovers input own reads) (hown : own = some 0) : reads = some 0 := by
  rcases h with heq | ⟨_, m, n, hm, hn, hle⟩
  · rw [← heq, hown]
  · rw [hown, Option.some.injEq] at hm
    rw [hn, Option.some.injEq]
    omega

/-- At the end of the input the state may use up a read that the run does not. -/
theorem BudgetCovers.ended {input input' : InputStream} {own reads : Option Nat}
    (h : BudgetCovers input own reads) (hinput : input'.answers = []) :
    BudgetCovers input' own (reads.map (· - 1)) := by
  rcases h with heq | ⟨_, m, n, hm, hn, hle⟩
  · cases hreads : reads with
    | none => exact .inl (heq.trans hreads)
    | some n => exact .inr ⟨hinput, n, n - 1, heq.trans hreads, rfl, Nat.sub_le n 1⟩
  · exact .inr ⟨hinput, m, n - 1, hm, by rw [hn]; rfl, by omega⟩

/-- A read of the run changes its input and its budget alone. -/
theorem Mirrors.spend (h : e.Mirrors s) {input : InputStream} {readsLeft : Option Nat}
    (hinput : ∃ bytes : List UInt8, input.answers = bytes.map .byte)
    (hbudget : BudgetCovers input readsLeft (s.readsLeft.map (· - 1))) :
    Mirrors { e with input := input, readsLeft := readsLeft }
      { s with readsLeft := s.readsLeft.map (· - 1) } where
  pc := h.pc
  tape := ⟨h.tape.model, h.tape.pointer, h.tape.cells⟩
  input := hinput
  output := h.output
  budget := hbudget

/-- A read of a run uses up one read of the state, and it finds a byte only while the
state has reads left. -/
theorem Mirrors.takeByte (h : e.Mirrors s) :
    ∃ byte? e', e.takeByte = (.ok byte?, e') ∧
      e'.Mirrors { s with readsLeft := s.readsLeft.map (· - 1) } ∧
      (byte? ≠ none → s.readsLeft ≠ some 0) := by
  by_cases hspent : e.readsLeft = some 0
  · have hs : s.readsLeft = some 0 := h.budget.spent hspent
    refine ⟨none, e, takeByte_of_spent hspent, ?_, fun hnone => absurd rfl hnone⟩
    exact h.spend h.input (.inl (by rw [hs, hspent]; rfl))
  · obtain ⟨bytes, hbytes⟩ := h.input
    cases bytes with
    | nil =>
      refine ⟨none, { e with input := ⟨[], e.input.calls + 1, e.input.consumed⟩ }, ?_, ?_,
        fun hnone => absurd rfl hnone⟩
      · rw [takeByte_of_budget hspent]
        simp only [InputStream.next, hbytes, List.map_nil, InputStream.next.go]
      · exact h.spend ⟨[], rfl⟩ (h.budget.ended rfl)
    | cons b rest =>
      -- There is input left, so the budgets still agree.
      have hs : e.readsLeft = s.readsLeft := by
        rcases h.budget with heq | ⟨hended, _⟩
        · exact heq
        · rw [hbytes] at hended
          cases hended
      refine ⟨some b, { e with
        input := ⟨rest.map .byte, e.input.calls + 1, e.input.consumed + 1⟩
        readsLeft := e.readsLeft.map (· - 1) }, ?_, ?_, fun _ => hs ▸ hspent⟩
      · rw [takeByte_of_budget hspent]
        simp only [InputStream.next, hbytes, List.map_cons, InputStream.next.go]
      · exact h.spend ⟨rest, rfl⟩ (.inl (by rw [hs]))

/-- A bracket of a run goes the way of the state. -/
theorem Mirrors.branch (h : e.Mirrors s) {taken : Bool} {next : List State}
    (hnext : (program.branch s (s.pc + 1) taken).map ([·]) = .ok next) :
    ∃ e', branch program e taken = .more e' ∧ ∃ t ∈ next, e'.Mirrors t := by
  rcases Program.branch_cases hnext with ⟨rfl, rfl⟩ | ⟨rfl, target, htarget, rfl⟩
  · exact ⟨_, rfl, _, List.mem_singleton_self _, h.advance (h.tape.jump _) rfl rfl⟩
  · simp only [Execution.branch, if_true, h.pc, htarget]
    exact ⟨_, rfl, _, List.mem_singleton_self _,
      ⟨rfl, h.tape.jump _, h.input, h.output, h.budget⟩⟩

/-- Whatever a read of a run finds, a state that is not blocked may find as well. -/
theorem Mirrors.read (h : e.Mirrors s) (hne : (io.possibleReads s.readsLeft).toList ≠ []) :
    ∃ byte? e', e.takeByte = (.ok byte?, e') ∧ ∃ b ∈ (io.possibleReads s.readsLeft).toList,
      (e'.store io byte?).Mirrors (s.receive (s.pc + 1) b) := by
  obtain ⟨byte?, e', htake, he', hsome⟩ := h.takeByte
  refine ⟨byte?, e', htake, ?_⟩
  cases byte? with
  | some b =>
    refine ⟨b, ?_, ?_⟩
    · rw [InputModel.possibleReads_eq_any (hsome (Option.some_ne_none b))]
      exact PossibleReads.mem_any b
    · have hstored := he'.advance (he'.tape.store (s.pc + 1) b _) rfl rfl
      exact ⟨hstored.pc, hstored.tape, hstored.input, hstored.output, hstored.budget⟩
  | none =>
    cases hio : io.noChangeOnEof with
    | true =>
      -- The cell stays as it is, which looks like reading the byte that is there.
      refine ⟨s.current, InputModel.mem_of_not_blocked hio hne _, ?_⟩
      rw [store, if_pos hio]
      exact he'.advance (he'.tape.keep _ _) rfl rfl
    | false =>
      refine ⟨io.eofByte, InputModel.eofByte_mem hio _, ?_⟩
      rw [store, hio, if_neg Bool.false_ne_true]
      exact he'.advance (he'.tape.store _ _ _) rfl rfl

/-- A run writes a byte, which the state does not record. -/
theorem Mirrors.emit (h : e.Mirrors s) (byte : UInt8) :
    (e.emit byte).Mirrors (s.jump (s.pc + 1)) where
  pc := congrArg (· + 1) h.pc
  tape := h.tape.jump _
  input := h.input
  output := h.output
  budget := h.budget

/-- While the state has successors the run goes on, and one of them describes it. -/
theorem Mirrors.step (h : e.Mirrors s) {next : List State}
    (hnext : program.successors io s = .ok next) (hne : next ≠ []) :
    ∃ e', step program io none e = .more e' ∧ ∃ t ∈ next, e'.Mirrors t := by
  unfold Execution.step
  rw [h.pc]
  cases hi : program.instructionAt? s.pc with
  | none => exact absurd (Program.eq_nil_of_halted hi hnext) hne
  | some i =>
    rw [Program.successors_of_instruction hi] at hnext
    simp only
    cases i with
    | moveLeft =>
      cases hnext
      exact ⟨_, rfl, _, List.mem_singleton_self _, h.advance (h.tape.left _) rfl rfl⟩
    | moveRight =>
      obtain ⟨right, hright, rfl⟩ := Program.right_cases hnext
      exact ⟨_, rfl, _, List.mem_singleton_self _, h.advance (h.tape.right _ hright) rfl rfl⟩
    | increment =>
      cases hnext
      exact ⟨_, rfl, _, List.mem_singleton_self _, h.advance (h.tape.increment _) rfl rfl⟩
    | decrement =>
      cases hnext
      exact ⟨_, rfl, _, List.mem_singleton_self _, h.advance (h.tape.decrement _) rfl rfl⟩
    | read =>
      cases hnext
      have hopen : (io.possibleReads s.readsLeft).toList ≠ [] :=
        fun hnil => hne (by rw [hnil, List.map_nil])
      obtain ⟨byte?, e', htake, b, hb, he'⟩ := h.read hopen
      exact ⟨e'.store io byte?, by simp only [perform, htake], _, List.mem_map_of_mem hb, he'⟩
    | write =>
      cases hnext
      have hfull : e.output.isFull = false := by simp [OutputStream.isFull, h.output]
      exact ⟨_, by rw [perform, hfull, if_neg Bool.false_ne_true], _, List.mem_singleton_self _,
        h.emit _⟩
    | jumpIfZero =>
      have hzero : (e.tape.current == 0) = (s.current == 0) := by
        rw [Bool.eq_iff_iff, beq_iff_eq, beq_iff_eq]
        exact h.tape.current_eq_zero
      rw [perform, hzero]
      exact h.branch hnext
    | jumpIfNonZero =>
      have hzero : (e.tape.current != 0) = (s.current != 0) := by
        rw [Bool.eq_iff_iff, bne_iff_ne, bne_iff_ne]
        exact not_congr h.tape.current_eq_zero
      rw [perform, hzero]
      exact h.branch hnext

end Execution

end TapeReach
