import TapeReach.Proofs.Execution.Simulation
import TapeReach.Proofs.Loop

/-!
# Paths of the state space can be run

Every path of the state space is the course of a concrete run on some finite
input. The input holds, for each read that the budget grants, the byte that
the path stores; a read behind the budget takes no byte from the input and
stores the byte for exhausted input, as the path does. Along the path the run
and the state agree in everything, the budget included.
-/

namespace TapeReach.Execution

/-- The run stands in the state: position, pointer, cells and budget are the same. -/
structure Matches (e : Execution) (s : State) : Prop where
  /-- Both are at the same position. -/
  pc : e.pc = s.pc
  /-- Both point at the same cell. -/
  pointer : e.tape.pointer = s.pointer
  /-- Every cell has the same value. -/
  cells : ∀ p, e.tape.get p = (s.cell p).toUInt32
  /-- Both may read the same number of bytes. -/
  readsLeft : e.readsLeft = s.readsLeft

/-- The state describes the run, the budgets agree, and these bytes are still to come. -/
structure Replays (e : Execution) (s : State) (bytes : List UInt8) : Prop extends
    Mirrors e s where
  /-- The bytes to come. -/
  answers : e.input.answers = bytes.map .byte
  /-- The final flush succeeds. -/
  flush : e.output.failsOnFlush = false
  /-- The budgets agree. -/
  readsLeft : e.readsLeft = s.readsLeft

variable {program : Program} {io : InputModel} {e : Execution} {s t : State} {bytes : List UInt8}

/-- A run that replays a path stands in its state. -/
theorem Replays.matches (h : e.Replays s bytes) : e.Matches s :=
  ⟨h.pc, h.tape.pointer, h.tape.cells, h.readsLeft⟩

/-- A run at its start replays every path from the initial state. -/
theorem replays_start (io : InputModel) (bytes : List UInt8) {output : OutputStream}
    (hcapacity : output.capacity = none) (hflush : output.failsOnFlush = false) :
    (start io (.blank {}) (.ofBytes bytes) output).Replays (.initial io.maxReads) bytes where
  toMirrors := mirrors_start io bytes hcapacity
  answers := rfl
  flush := hflush
  readsLeft := rfl

/-- A run goes on with the path when no byte is read. -/
theorem Replays.advance (h : e.Replays s bytes) {tape : Tape} (htape : tape.Mirrors t)
    (hpc : t.pc = s.pc + 1) (hreads : t.readsLeft = s.readsLeft) :
    (e.advance tape).Replays t bytes where
  toMirrors := h.toMirrors.advance htape hpc hreads
  answers := h.answers
  flush := h.flush
  readsLeft := h.readsLeft.trans hreads.symm

/-- A run that writes a byte goes on with the path. -/
theorem Replays.emit (h : e.Replays s bytes) (byte : UInt8) :
    (e.emit byte).Replays (s.jump (s.pc + 1)) bytes where
  toMirrors := h.toMirrors.emit byte
  answers := h.answers
  flush := h.flush
  readsLeft := h.readsLeft

/-- A run that takes a jump goes on with the path. -/
theorem Replays.jump (h : e.Replays s bytes) (target : Nat) :
    Replays { e.advance e.tape with pc := target } (s.jump target) bytes where
  pc := rfl
  tape := h.tape.jump target
  input := h.input
  output := h.output
  budget := h.budget
  answers := h.answers
  flush := h.flush
  readsLeft := h.readsLeft

/-- A run takes the next byte of its input while its budget lasts. -/
theorem takeByte_of_answers {b : UInt8} {rest : List ReadAnswer} (hreads : e.readsLeft ≠ some 0)
    (hanswers : e.input.answers = .byte b :: rest) :
    e.takeByte = (.ok (some b), { e with
      input := ⟨rest, e.input.calls + 1, e.input.consumed + 1⟩
      readsLeft := e.readsLeft.map (· - 1) }) := by
  rw [takeByte_of_budget hreads]
  simp only [InputStream.next, hanswers, InputStream.next.go]

/-- A read within the budget stores the byte that the path stores, if that comes next. -/
theorem Replays.read_byte {b : UInt8} (h : e.Replays s (b :: bytes)) (hs : s.readsLeft ≠ some 0)
    (io : InputModel) :
    ∃ e', e.takeByte = (.ok (some b), e') ∧
      (e'.store io (some b)).Replays (s.receive (s.pc + 1) b) bytes := by
  have hreads : e.readsLeft ≠ some 0 := h.readsLeft ▸ hs
  have hanswers : e.input.answers = .byte b :: bytes.map .byte := h.answers
  have hbudget : e.readsLeft.map (· - 1) = s.readsLeft.map (· - 1) := by rw [h.readsLeft]
  refine ⟨_, takeByte_of_answers hreads hanswers, ?_⟩
  let input : InputStream := ⟨bytes.map .byte, e.input.calls + 1, e.input.consumed + 1⟩
  have hinput : ∃ rest : List UInt8, input.answers = rest.map .byte := ⟨bytes, rfl⟩
  have hspent := h.toMirrors.spend hinput (.inl hbudget)
  have hstored := hspent.advance (hspent.tape.store (s.pc + 1) b _) rfl rfl
  exact ⟨⟨hstored.pc, hstored.tape, hstored.input, hstored.output, hstored.budget⟩, rfl, h.flush,
    hbudget⟩

/-- A read behind the budget stores the byte for exhausted input. -/
theorem Replays.read_eof (h : e.Replays s bytes) (hs : s.readsLeft = some 0)
    (hio : io.noChangeOnEof = false) :
    e.takeByte = (.ok none, e) ∧
      (e.store io none).Replays (s.receive (s.pc + 1) io.eofByte) bytes := by
  have hreads : e.readsLeft = some 0 := h.readsLeft.trans hs
  refine ⟨takeByte_of_spent hreads, ?_⟩
  rw [store, hio, if_neg Bool.false_ne_true]
  refine h.advance (h.tape.store _ _ _) rfl ?_
  change s.readsLeft.map (· - 1) = s.readsLeft
  rw [hs]
  rfl

/-- What a read behind the budget can find: the byte for exhausted input, unless the
read is blocked. -/
theorem eof_of_mem_possibleReads {b : UInt8} (hs : s.readsLeft = some 0)
    (hb : b ∈ (io.possibleReads s.readsLeft).toList) :
    io.noChangeOnEof = false ∧ b = io.eofByte := by
  rw [hs] at hb
  cases hio : io.noChangeOnEof with
  | true =>
    simp only [InputModel.possibleReads, hio, if_true, PossibleReads.toList, List.not_mem_nil] at hb
  | false =>
    simp only [InputModel.possibleReads, hio, Bool.false_eq_true, if_false, PossibleReads.toList,
      List.mem_singleton] at hb
    exact ⟨rfl, hb⟩

/-- A run without a step limit executes the instruction at the position of the state. -/
theorem Replays.step_eq (h : e.Replays s bytes) {i : Instruction}
    (hi : program.instructionAt? s.pc = some i) :
    step program io none e = e.perform program io i :=
  step_of_instructionAt (h.pc ▸ hi)

/-- A bracket of a run goes the way of the state. -/
theorem Replays.branch_eq (h : e.Replays s bytes) {i : Instruction}
    (hi : program.instructionAt? s.pc = some i) (hj : i.isJump = true) {taken : Bool}
    (htaken : taken = true ↔
      i = .jumpIfZero ∧ s.current = 0 ∨ i = .jumpIfNonZero ∧ s.current ≠ 0) :
    step program io none e = branch program e taken := by
  have hzero := h.tape.current_eq_zero
  rw [h.step_eq hi]
  cases i with
  | jumpIfZero =>
    have heq : (e.tape.current == 0) = taken := by
      rw [Bool.eq_iff_iff, beq_iff_eq, hzero, htaken]
      simp
    rw [perform, heq]
  | jumpIfNonZero =>
    have heq : (e.tape.current != 0) = taken := by
      rw [Bool.eq_iff_iff, bne_iff_ne, ne_eq, hzero, htaken]
      simp
    rw [perform, heq]
  | moveLeft | moveRight | increment | decrement | read | write => cases hj

/-- Each transition of the state space is a step of a run, if the input goes on with the
byte that the transition reads. -/
theorem exists_input_of_transition (ht : program.Transition io s t) :
    ∃ used : List UInt8, ∀ e rest, Replays e s (used ++ rest) →
      ∃ e', step program io none e = .more e' ∧ e'.Replays t rest := by
  cases ht with
  | left hi =>
    exact ⟨[], fun e rest h => ⟨_, h.step_eq hi, h.advance (h.tape.left _) rfl rfl⟩⟩
  | right hi hright =>
    exact ⟨[], fun e rest h => ⟨_, h.step_eq hi, h.advance (h.tape.right _ hright) rfl rfl⟩⟩
  | increment hi =>
    exact ⟨[], fun e rest h => ⟨_, h.step_eq hi, h.advance (h.tape.increment _) rfl rfl⟩⟩
  | decrement hi =>
    exact ⟨[], fun e rest h => ⟨_, h.step_eq hi, h.advance (h.tape.decrement _) rfl rfl⟩⟩
  | read hi b hb =>
    by_cases hs : s.readsLeft = some 0
    · obtain ⟨hio, rfl⟩ := eof_of_mem_possibleReads hs hb
      refine ⟨[], fun e rest h => ?_⟩
      obtain ⟨htake, hnext⟩ := Replays.read_eof h hs hio
      exact ⟨_, by rw [h.step_eq hi, perform, htake], hnext⟩
    · refine ⟨[b], fun e rest h => ?_⟩
      obtain ⟨e', htake, hnext⟩ := Replays.read_byte h hs io
      exact ⟨_, by rw [h.step_eq hi, perform, htake], hnext⟩
  | write hi =>
    refine ⟨[], fun e rest h => ⟨_, ?_, h.emit e.tape.current.toUInt8⟩⟩
    have hfull : e.output.isFull = false := by simp [OutputStream.isFull, h.output]
    rw [h.step_eq hi, perform, hfull, if_neg Bool.false_ne_true]
  | @pass i hi hc =>
    have hj : i.isJump = true := by rcases hc with ⟨rfl, _⟩ | ⟨rfl, _⟩ <;> rfl
    have htaken : false = true ↔
        i = .jumpIfZero ∧ s.current = 0 ∨ i = .jumpIfNonZero ∧ s.current ≠ 0 := by
      rcases hc with ⟨rfl, hcell⟩ | ⟨rfl, hcell⟩ <;> simp [hcell]
    refine ⟨[], fun e rest h => ⟨_, h.branch_eq hi hj htaken, ?_⟩⟩
    exact h.advance (h.tape.jump _) rfl rfl
  | @jump i hi hc target htarget =>
    have hj : i.isJump = true := by rcases hc with ⟨rfl, _⟩ | ⟨rfl, _⟩ <;> rfl
    refine ⟨[], fun e rest h => ⟨_, ?_, h.jump target⟩⟩
    rw [h.branch_eq hi hj (iff_of_true rfl hc)]
    simp only [branch, if_true, h.pc, htarget]

/-- Each path of the state space is the course of a run on some input: after `k` steps
the run stands in the `k`-th state, and at the end of the path the rest of the input is
left. -/
theorem exists_input_of_path {path : Nat → State} {n : Nat}
    (hpath : ∀ k < n, (program.stateSpace io).Leads (path k) (path (k + 1))) :
    ∃ used : List UInt8, ∀ e rest, Replays e (path 0) (used ++ rest) →
      (∀ k ≤ n, ∃ e', Loop.iterate (step program io none) k e = .more e' ∧ e'.Matches (path k)) ∧
      ∃ e', Loop.iterate (step program io none) n e = .more e' ∧ e'.Replays (path n) rest := by
  induction n with
  | zero =>
    refine ⟨[], fun e rest h => ⟨fun k hk => ?_, e, rfl, h⟩⟩
    rw [Nat.le_zero.mp hk]
    exact ⟨e, rfl, h.matches⟩
  | succ n ih =>
    obtain ⟨used, hused⟩ := ih fun k hk => hpath k (by omega)
    obtain ⟨last, hlast⟩ :=
      exists_input_of_transition (Program.transition_of_leads (hpath n (Nat.lt_succ_self n)))
    refine ⟨used ++ last, fun e rest h => ?_⟩
    rw [List.append_assoc] at h
    obtain ⟨hvisits, e', he', hreplays⟩ := hused e (last ++ rest) h
    obtain ⟨e'', hstep, hnext⟩ := hlast e' rest hreplays
    have hend : Loop.iterate (step program io none) (n + 1) e = .more e'' :=
      (Loop.iterate_succ_of_more he').trans hstep
    refine ⟨fun k hk => ?_, e'', hend, hnext⟩
    by_cases hkn : k = n + 1
    · subst hkn
      exact ⟨e'', hend, hnext.matches⟩
    · exact hvisits k (by omega)

/-- A run that stands behind the last instruction halts. -/
theorem Replays.halts (h : e.Replays s bytes) (hs : program.instructionAt? s.pc = none) :
    step program io none e = .done ⟨.ok e.stats, e⟩ := by
  simp only [step, h.pc, hs, finish, OutputStream.flush, h.flush, Bool.false_eq_true, if_false]

end TapeReach.Execution
