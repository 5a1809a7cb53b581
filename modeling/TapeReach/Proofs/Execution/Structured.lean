import TapeReach.Proofs.Execution.Effect
import TapeReach.Proofs.Loop
import TapeReach.Proofs.Program.Block

/-!
# Structured execution

A block runs its items in order, and a loop runs its body for as long as the
current cell is not zero. This semantics has no positions and no jumps, and it
describes the runs of every program that was read from a text.

A bracket asks only whether the current cell is zero, and both brackets of a
loop continue at the same two places: the start of the body and the position
behind the loop. So a run at a closing bracket goes on as if it stood at the
opening one, and each further round of a loop is a run of the whole loop.
-/

namespace TapeReach

open Brackets

/-- Running the block on the first machine ends with the second. -/
inductive Block.Runs (io : InputModel) : Block → Machine → Machine → Prop
  /-- Nothing is left to run. -/
  | nil {m : Machine} : Runs io .nil m m
  /-- An instruction, and then what follows it. -/
  | plain {i : Instruction} {hi : i.isJump = false} {rest : Block} {m m' m'' : Machine}
      (heffect : m.effect io i = some m') (hrest : Runs io rest m' m'') :
      Runs io (.plain i hi rest) m m''
  /-- A loop ends on a zero, and then what follows it is run. -/
  | leave {body rest : Block} {m m' : Machine} (hzero : m.tape.current = 0)
      (hrest : Runs io rest m m') : Runs io (.loop body rest) m m'
  /-- The body of a loop, and then the loop again. -/
  | again {body rest : Block} {m m' m'' : Machine} (hcell : m.tape.current ≠ 0)
      (hbody : Runs io body m m') (hloop : Runs io (.loop body rest) m' m'') :
      Runs io (.loop body rest) m m''

namespace Execution

/-- Without a limit the run halts within `n` steps, and this is what it leaves. -/
def HaltsIn (e : Execution) (program : Program) (io : InputModel) (n : Nat) (m : Machine) :
    Prop :=
  ∃ stats final, Loop.iterate (step program io none) n e = .done ⟨.ok stats, final⟩ ∧
    final.machine = m

variable {program : Program} {io : InputModel} {e : Execution} {m : Machine} {n : Nat}

section Brackets

variable {p q : Nat}

/-- The run behind a bracket of the loop at `p` and `q`. -/
def turn (e : Execution) (p q : Nat) : Execution :=
  { e.advance e.tape with pc := if e.tape.current = 0 then q + 1 else p + 1 }

/-- The opening bracket of a loop leaves it on a zero and enters it otherwise. -/
theorem step_opening (io : InputModel) (h : program.HasLoop p q) (hpc : e.pc = p) :
    step program io none e = .more (e.turn p q) := by
  subst hpc
  rw [step_of_instructionAt h.opening, perform, branch, turn]
  by_cases hcell : e.tape.current = 0
  · simp only [hcell, beq_self_eq_true, if_true, h.leave]
  · rw [if_neg (by simpa using hcell), if_neg hcell]
    rfl

/-- The closing bracket of a loop does the same. -/
theorem step_closing (io : InputModel) (h : program.HasLoop p q) (hpc : e.pc = q) :
    step program io none e = .more (e.turn p q) := by
  subst hpc
  rw [step_of_instructionAt h.closing, perform, branch, turn]
  by_cases hcell : e.tape.current = 0
  · rw [if_neg (by simpa using hcell), if_pos hcell]
    rfl
  · rw [if_pos (by simpa using hcell), if_neg hcell, h.again]

/-- A run at the closing bracket of a loop goes on as if it stood at the opening one. -/
theorem step_closing_eq (io : InputModel) (h : program.HasLoop p q) (hpc : e.pc = q) :
    step program io none e = step program io none { e with pc := p } := by
  rw [step_closing io h hpc, step_opening io h rfl]
  rfl

end Brackets

section Halting

/-- A run takes a step to halt. -/
theorem HaltsIn.exists_succ (h : e.HaltsIn program io n m) : ∃ k, n = k + 1 := by
  cases n with
  | zero =>
    obtain ⟨_, _, hdone, _⟩ := h
    cases hdone
  | succ k => exact ⟨k, rfl⟩

/-- A run that goes on halts with what follows. -/
theorem haltsIn_succ_of_step {e' : Execution} (h : step program io none e = .more e') :
    e.HaltsIn program io (n + 1) m ↔ e'.HaltsIn program io n m := by
  rw [HaltsIn, HaltsIn, Loop.iterate_of_step h]

/-- A run that goes on halts if what follows does. -/
theorem exists_haltsIn_of_step {e' : Execution} (hstep : step program io none e = .more e')
    (h : ∃ k, e'.HaltsIn program io k m) : ∃ k, e.HaltsIn program io k m := by
  obtain ⟨k, hk⟩ := h
  exact ⟨k + 1, (haltsIn_succ_of_step hstep).mpr hk⟩

/-- A run that halts executes its next instruction without a failure. -/
theorem HaltsIn.exists_effect (h : e.HaltsIn program io (n + 1) m) {i : Instruction}
    (hi : i.isJump = false) (hat : program.instructionAt? e.pc = some i) :
    ∃ e' : Execution, e.machine.effect io i = some e'.machine ∧ e'.pc = e.pc + 1 ∧
      e'.HaltsIn program io n m := by
  have hstep := hasEffect_perform program io e hi
  rw [← step_of_instructionAt hat] at hstep
  generalize hnext : step program io none e = next at hstep
  generalize e.machine.effect io i = found at hstep
  cases hstep with
  | more hpc => exact ⟨_, rfl, hpc, (haltsIn_succ_of_step hnext).mp h⟩
  | failed =>
    obtain ⟨_, _, hdone, _⟩ := h
    rw [Loop.iterate, hnext] at hdone
    cases hdone

/-- A run at the closing bracket of a loop halts as if it stood at the opening one. -/
theorem haltsIn_closing {p q : Nat} (h : program.HasLoop p q) (hpc : e.pc = q) :
    HaltsIn { e with pc := p } program io n m ↔ e.HaltsIn program io n m := by
  cases n with
  | zero => exact iff_of_false (fun h => nomatch h.exists_succ) fun h => nomatch h.exists_succ
  | succ n => rw [HaltsIn, HaltsIn, Loop.iterate_succ_congr (step_closing_eq io h hpc)]

/-- Where the program ends a run halts, if the output can be flushed. -/
theorem haltsIn_of_end (hend : program.instructionAt? e.pc = none) :
    e.HaltsIn program io (n + 1) m ↔ e.machine = m ∧ m.output.flush = .ok () := by
  have hstep : step program io none e = .done e.finish := by rw [step, hend]
  have hiterate : Loop.iterate (step program io none) (n + 1) e = .done e.finish := by
    rw [Loop.iterate, hstep]
  rw [HaltsIn, hiterate, finish]
  constructor
  · rintro ⟨stats, final, hfinal, rfl⟩
    cases hflush : e.output.flush with
    | error fault =>
      rw [hflush] at hfinal
      cases hfinal
    | ok _ =>
      rw [hflush] at hfinal
      cases hfinal
      exact ⟨rfl, hflush⟩
  · rintro ⟨rfl, hflush⟩
    have hflush' : e.output.flush = .ok () := hflush
    rw [hflush']
    exact ⟨_, _, rfl, rfl⟩

/-- A structured run of a block is a stretch of a run: there is a run behind the block with
the same machine, and if it halts then so does the run in front of the block. -/
theorem exists_behind_of_runs (hprogram : program.WellFormed) {block : Block} {m m' : Machine}
    (h : block.Runs io m m') :
    ∀ e : Execution, e.machine = m → block.StandsAt program e.pc →
      ∃ e' : Execution, e'.pc = e.pc + block.code.length ∧ e'.machine = m' ∧
        ∀ n final, e'.HaltsIn program io n final → ∃ k, e.HaltsIn program io k final := by
  induction h with
  | nil => exact fun e he _ => ⟨e, rfl, he, fun n final hhalts => ⟨n, hhalts⟩⟩
  | @plain i hi rest _ _ _ heffect _ ih =>
    rintro e rfl hat
    obtain ⟨hi', hrest⟩ := hat.plain
    obtain ⟨next, hstep, hpc, hmachine⟩ := exists_step_of_effect hi hi' heffect
    obtain ⟨e', hpc', hmachine', hback⟩ := ih next hmachine (hpc ▸ hrest)
    have hend : e'.pc = e.pc + (Block.plain i hi rest).code.length := by
      rw [hpc', hpc, Block.length_code_plain]
      omega
    exact ⟨e', hend, hmachine', fun n final hhalts =>
      exists_haltsIn_of_step hstep (hback n final hhalts)⟩
  | @leave body rest _ _ hzero _ ih =>
    rintro e rfl hat
    obtain ⟨q, hq, hpairs, _, hrest⟩ := hat.loop
    have hstep := step_opening io (hprogram.hasLoop hpairs) rfl
    have hpc : (e.turn e.pc q).pc = q + 1 := if_pos hzero
    obtain ⟨e', hpc', hmachine', hback⟩ := ih (e.turn e.pc q) rfl (hpc ▸ hrest)
    have hend : e'.pc = e.pc + (Block.loop body rest).code.length := by
      rw [hpc', hpc, hq, Block.length_code_loop]
      omega
    exact ⟨e', hend, hmachine', fun n final hhalts =>
      exists_haltsIn_of_step hstep (hback n final hhalts)⟩
  | @again body rest _ _ _ hcell _ _ ihbody ihloop =>
    rintro e rfl hat
    obtain ⟨q, hq, hpairs, hbody, _⟩ := hat.loop
    have hloop := hprogram.hasLoop hpairs
    have hstep := step_opening io hloop rfl
    have hpc : (e.turn e.pc q).pc = e.pc + 1 := if_neg hcell
    obtain ⟨e₁, hpc₁, hmachine₁, hback₁⟩ := ihbody (e.turn e.pc q) rfl (hpc ▸ hbody)
    -- Behind the body the run goes on as if it had come to the loop anew.
    obtain ⟨e₂, hpc₂, hmachine₂, hback₂⟩ := ihloop { e₁ with pc := e.pc } hmachine₁ hat
    refine ⟨e₂, hpc₂, hmachine₂, fun n final hhalts => ?_⟩
    have hclosing : e₁.pc = q := by rw [hpc₁, hpc, hq]
    obtain ⟨k₂, hk₂⟩ := hback₂ n final hhalts
    have hbody := hback₁ k₂ final ((haltsIn_closing hloop hclosing).mp hk₂)
    exact exists_haltsIn_of_step hstep hbody

/-- A run that halts from the front of a block comes to its end by a structured run. -/
theorem HaltsIn.exists_runs (hprogram : program.WellFormed) {block : Block} {final : Machine}
    (hat : block.StandsAt program e.pc) (h : e.HaltsIn program io n final) :
    ∃ k ≤ n, ∃ e' : Execution, block.Runs io e.machine e'.machine ∧
      e'.pc = e.pc + block.code.length ∧ e'.HaltsIn program io k final := by
  -- Every step of the run leaves fewer steps, whether it goes deeper into the tree or back
  -- to the start of a loop.
  induction n using Nat.strong_induction_on generalizing block e with
  | _ n ih =>
    cases block with
    | nil => exact ⟨n, Nat.le_refl n, e, .nil, rfl, h⟩
    | plain i hi rest =>
      obtain ⟨n, rfl⟩ := h.exists_succ
      obtain ⟨hi', hrest⟩ := hat.plain
      obtain ⟨next, heffect, hpc, hnext⟩ := h.exists_effect hi hi'
      obtain ⟨k, hk, e', hruns, hpc', hhalts⟩ := ih n (Nat.lt_succ_self n) (hpc ▸ hrest) hnext
      have hend : e'.pc = e.pc + (Block.plain i hi rest).code.length := by
        rw [hpc', hpc, Block.length_code_plain]
        omega
      exact ⟨k, Nat.le_succ_of_le hk, e', .plain heffect hruns, hend, hhalts⟩
    | loop body rest =>
      obtain ⟨n, rfl⟩ := h.exists_succ
      obtain ⟨q, hq, hpairs, hbody, hrest⟩ := hat.loop
      have hloop := hprogram.hasLoop hpairs
      have hturn := (haltsIn_succ_of_step (step_opening io hloop rfl)).mp h
      by_cases hcell : e.tape.current = 0
      · have hpc : (e.turn e.pc q).pc = q + 1 := if_pos hcell
        obtain ⟨k, hk, e', hruns, hpc', hhalts⟩ :=
          ih n (Nat.lt_succ_self n) (hpc ▸ hrest) hturn
        have hend : e'.pc = e.pc + (Block.loop body rest).code.length := by
          rw [hpc', hpc, hq, Block.length_code_loop]
          omega
        exact ⟨k, Nat.le_succ_of_le hk, e', .leave hcell hruns, hend, hhalts⟩
      · have hpc : (e.turn e.pc q).pc = e.pc + 1 := if_neg hcell
        obtain ⟨k₁, hk₁, e₁, hruns₁, hpc₁, hhalts₁⟩ :=
          ih n (Nat.lt_succ_self n) (hpc ▸ hbody) hturn
        have hclosing : e₁.pc = q := by rw [hpc₁, hpc, hq]
        have hopening := (haltsIn_closing hloop hclosing).mpr hhalts₁
        have hanew : (Block.loop body rest).StandsAt program { e₁ with pc := e.pc }.pc := hat
        obtain ⟨k₂, hk₂, e₂, hruns₂, hpc₂, hhalts₂⟩ := ih k₁ (by omega) hanew hopening
        exact ⟨k₂, by omega, e₂, .again hcell hruns₁ hruns₂, hpc₂, hhalts₂⟩

/-- A well-formed program halts as the block of its code runs. -/
theorem exists_haltsIn_iff (hprogram : program.WellFormed) {block : Block}
    (hcode : block.code = program.instructions.toList) (hpc : e.pc = 0) :
    (∃ n, e.HaltsIn program io n m) ↔
      block.Runs io e.machine m ∧ m.output.flush = .ok () := by
  have hat : block.StandsAt program e.pc :=
    ⟨[], [], by rw [hcode, List.nil_append, List.append_nil], hpc⟩
  have hend : ∀ e' : Execution, e'.pc = e.pc + block.code.length →
      program.instructionAt? e'.pc = none := by
    intro e' hpc'
    rw [hpc', hpc, hcode, Nat.zero_add, Array.length_toList]
    exact Array.getElem?_eq_none (Nat.le_refl _)
  constructor
  · rintro ⟨n, h⟩
    obtain ⟨k, _, e', hruns, hpc', hhalts⟩ := h.exists_runs hprogram hat
    obtain ⟨k, rfl⟩ := hhalts.exists_succ
    obtain ⟨rfl, hflush⟩ := (haltsIn_of_end (hend e' hpc')).mp hhalts
    exact ⟨hruns, hflush⟩
  · rintro ⟨hruns, hflush⟩
    obtain ⟨e', hpc', hmachine, hback⟩ := exists_behind_of_runs hprogram hruns e rfl hat
    exact hback 1 m ((haltsIn_of_end (hend e' hpc')).mpr ⟨hmachine, hflush⟩)

end Halting

end Execution

/-- The brackets of a program that was read from a text form one tree of blocks. On every
tape, input and output the program halts with a machine exactly if the tree does by its
structured semantics, and the output can be flushed. -/
theorem Program.halts_iff_structured {text : String} {program : Program}
    (hprogram : parse text = .ok program) :
    ∃ block : Block, block.code = program.instructions.toList ∧
      (∀ other : Block, other.code = program.instructions.toList → other = block) ∧
      ∀ (io : InputModel) (tape : Tape) (input : InputStream) (output : OutputStream)
        (m : Machine),
        (∃ n, (Execution.start io tape input output).HaltsIn program io n m) ↔
          block.Runs io ⟨tape, io.maxReads, input, output⟩ m ∧ m.output.flush = .ok () := by
  obtain ⟨hgrammar, htables⟩ := Source.ofChars_eq_ok_iff.mp hprogram
  have hwell := htables.wellFormed hgrammar
  obtain ⟨block, hblock⟩ := Block.exists_code_eq hwell.brackets
  refine ⟨block, hblock, fun other hother => Block.code_injective (hother.trans hblock.symm),
    fun io tape input output m => ?_⟩
  exact Execution.exists_haltsIn_iff hwell hblock rfl

/-- Doubles a byte in a loop within a loop and writes the result. -/
def doubling : Program :=
  .ofTables
    [.read, .jumpIfZero, .moveRight, .increment, .increment, .jumpIfZero, .moveRight, .increment,
      .moveLeft, .decrement, .jumpIfNonZero, .moveLeft, .decrement, .jumpIfNonZero, .moveRight,
      .moveRight, .write]
    [(1, 14), (5, 11), (10, 6), (13, 2)] []

/-- The tree of the loops that double a byte. -/
def Block.doubling : Block :=
  .plain .read rfl <| .loop
    (.plain .moveRight rfl <| .plain .increment rfl <| .plain .increment rfl <| .loop
      (.plain .moveRight rfl <| .plain .increment rfl <| .plain .moveLeft rfl <|
        .plain .decrement rfl .nil)
      (.plain .moveLeft rfl <| .plain .decrement rfl .nil))
    (.plain .moveRight rfl <| .plain .moveRight rfl <| .plain .write rfl .nil)

/-- A short tape of wide cells behind the doubling of a three, with the byte and the budget
used up. -/
def Machine.doubled : Machine where
  tape := ⟨⟨.bits16, 3, false⟩, 2, .ofList [(2, (6 : UInt32))]⟩
  readsLeft := some 0
  input := ⟨[], 1, 1⟩
  output := { written := #[6] }

/-- The doubling of a three halts, and so the loops of its tree run to the same end. -/
theorem Block.doubling_runs :
    Program.parse ",[>++[>+<-]<-]>>." = .ok TapeReach.doubling ∧
      Block.doubling.code = TapeReach.doubling.instructions.toList ∧
      Block.doubling.Runs { maxReads := some 1 }
        ⟨.blank ⟨.bits16, 3, false⟩, some 1, .ofBytes [3], {}⟩ .doubled := by
  have hread : Program.parse ",[>++[>+<-]<-]>>." = .ok TapeReach.doubling := by rfl
  have hcode : Block.doubling.code = TapeReach.doubling.instructions.toList := by rfl
  have hhalts : (Execution.start { maxReads := some 1 } (.blank ⟨.bits16, 3, false⟩)
      (.ofBytes [3]) {}).HaltsIn TapeReach.doubling { maxReads := some 1 } 60 .doubled :=
    ⟨_, _, rfl, rfl⟩
  obtain ⟨block, _, hunique, hruns⟩ := Program.halts_iff_structured hread
  rw [← hunique _ hcode] at hruns
  exact ⟨hread, hcode, ((hruns _ _ _ _ _).mp ⟨60, hhalts⟩).1⟩

end TapeReach
