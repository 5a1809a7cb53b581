import TapeReach.Proofs.Execution.Step
import TapeReach.Proofs.Execution.Stream

/-!
# Runs on disturbed streams

Runs on coupled streams execute the same instructions as long as no stream
fails. Interruptions couple streams in all that a run sees of them, so that
they make no difference at all. Faults couple a stream with every other one
that does what it does until it fails, so that a run that fails has done what
the run without the faults does, up to the instruction that has failed. The
counters of a run tell what it has taken from its input and added to its
output.
-/

namespace TapeReach

/-- The stream without its faults. -/
def OutputStream.faultless (o : OutputStream) : OutputStream :=
  { o with capacity := none, failsOnFlush := false }

/-- The runs stand at the same place, and what they have done is the same. -/
structure Execution.Abreast (e t : Execution) : Prop where
  pc : t.pc = e.pc
  tape : t.tape = e.tape
  readsLeft : t.readsLeft = e.readsLeft
  stats : t.stats = e.stats
  written : t.output.written = e.output.written
  consumed : t.input.consumed = e.input.consumed

/-- The runs have ended in the same way and in the same place. -/
structure RunOutcome.Agrees (outcome outcome' : RunOutcome) : Prop where
  result : outcome'.result = outcome.result
  final : outcome.final.Abreast outcome'.final

namespace Execution

/-- Relations between streams that last as long as the first of two runs does not fail. -/
structure Coupling where
  input : InputStream → InputStream → Prop
  output : OutputStream → OutputStream → Prop
  consumed {s t : InputStream} (h : input s t) : t.consumed = s.consumed
  /-- A call that goes through on the first stream does so on the second. -/
  next {s t rest : InputStream} {byte? : Option UInt8} (h : input s t)
    (hnext : s.next = (.ok byte?, rest)) :
    ∃ rest', t.next = (.ok byte?, rest') ∧ input rest rest'
  written {o p : OutputStream} (h : output o p) : p.written = o.written
  /-- Where the first stream has room, the second one has. -/
  room {o p : OutputStream} (h : output o p) (hroom : o.isFull = false) : p.isFull = false
  push {o p : OutputStream} (h : output o p) (byte : UInt8) : output (o.push byte) (p.push byte)

/-- Streams that differ in interruptions only. -/
def Coupling.interruptions : Coupling where
  input := InputStream.SameResults
  output o p := p = o
  consumed h := h.consumed
  next h hnext := h.exists_next hnext
  written h := congrArg OutputStream.written h
  room h hroom := h ▸ hroom
  push h byte := congrArg (OutputStream.push · byte) h

/-- A stream and another one that agrees with it until it fails. -/
def Coupling.faults : Coupling where
  input := InputStream.AgreesUntilFault
  output o p := p = o.faultless
  consumed h := h.consumed
  next h hnext := h.exists_next hnext
  written h := h ▸ rfl
  room h _ := h ▸ rfl
  push h _ := h ▸ rfl

/-- The runs differ in coupled streams only. -/
def Coupling.Coupled (c : Coupling) (e t : Execution) : Prop :=
  ∃ input output, t = { e with input := input, output := output } ∧
    c.input e.input input ∧ c.output e.output output

variable {program : Program} {io : InputModel} {limit : Option Nat} {e e' t : Execution}
  {outcome : RunOutcome} {n : Nat} {c : Coupling}

theorem Abreast.refl (e : Execution) : e.Abreast e := ⟨rfl, rfl, rfl, rfl, rfl, rfl⟩

theorem Abreast.symm (h : e.Abreast t) : t.Abreast e :=
  ⟨h.pc.symm, h.tape.symm, h.readsLeft.symm, h.stats.symm, h.written.symm, h.consumed.symm⟩

theorem Abreast.trans (h : e.Abreast e') (h' : e'.Abreast t) : e.Abreast t where
  pc := h'.pc.trans h.pc
  tape := h'.tape.trans h.tape
  readsLeft := h'.readsLeft.trans h.readsLeft
  stats := h'.stats.trans h.stats
  written := h'.written.trans h.written
  consumed := h'.consumed.trans h.consumed

/-- However a run ends, its last step has no effect. -/
theorem Stop.abreast (h : Stop program limit e outcome) : e.Abreast outcome.final := by
  cases h with
  | halted =>
    rw [finish]
    split <;> exact .refl e
  | limited => exact .refl e
  | failed _ hfailure =>
    cases hfailure with
    | read _ _ hnext =>
      exact ⟨rfl, rfl, rfl, rfl, rfl, (InputStream.answered_of_next hnext).consumed⟩
    | write | untargeted => exact .refl e

namespace Coupling

theorem Coupled.abreast (h : c.Coupled e t) : e.Abreast t := by
  obtain ⟨input, output, rfl, hinput, houtput⟩ := h
  exact ⟨rfl, rfl, rfl, rfl, c.written houtput, c.consumed hinput⟩

/-- A read stores the same on coupled runs. -/
theorem Coupled.store (h : c.Coupled e t) (io : InputModel) (byte? : Option UInt8) :
    c.Coupled (e.store io byte?) (t.store io byte?) := by
  obtain ⟨input, output, rfl, hinput, houtput⟩ := h
  cases byte? with
  | some b => exact ⟨input, output, rfl, hinput, houtput⟩
  | none =>
    rw [Execution.store, Execution.store]
    split <;> exact ⟨input, output, rfl, hinput, houtput⟩

/-- What advances a run advances every run that is coupled with it. -/
theorem Coupled.exists_advance (h : c.Coupled e t) (hadvance : Advance program io e e') :
    ∃ t', Advance program io t t' ∧ c.Coupled e' t' := by
  obtain ⟨input, output, rfl, hinput, houtput⟩ := h
  -- Only reads and writes touch the streams; every other instruction carries them along.
  let t : Execution := { e with input := input, output := output }
  cases hadvance with
  | left hi => exact ⟨_, .left hi, input, output, rfl, hinput, houtput⟩
  | right hi => exact ⟨_, .right hi, input, output, rfl, hinput, houtput⟩
  | increment hi => exact ⟨_, .increment hi, input, output, rfl, hinput, houtput⟩
  | decrement hi => exact ⟨_, .decrement hi, input, output, rfl, hinput, houtput⟩
  | spent hi hreads =>
    exact ⟨_, .spent hi hreads, .store ⟨input, output, rfl, hinput, houtput⟩ io none⟩
  | ended hi hreads hnext =>
    obtain ⟨rest', hnext', hrest⟩ := c.next hinput hnext
    refine ⟨_, .ended (e := t) hi hreads hnext', .store ?_ io none⟩
    exact ⟨rest', output, rfl, hrest, houtput⟩
  | @received hi hreads b _ hnext =>
    obtain ⟨rest', hnext', hrest⟩ := c.next hinput hnext
    refine ⟨_, .received (e := t) hi hreads hnext', .store ?_ io (some b)⟩
    exact ⟨rest', output, rfl, hrest, houtput⟩
  | write hi hroom =>
    exact ⟨_, .write hi (c.room houtput hroom), input, _, rfl, hinput, c.push houtput _⟩
  | pass hi hc => exact ⟨_, .pass hi hc, input, output, rfl, hinput, houtput⟩
  | jump hi hc ht => exact ⟨_, .jump (e := t) hi hc ht, input, output, rfl, hinput, houtput⟩

/-- Coupled runs execute the same instructions. -/
theorem Coupled.exists_step (h : c.Coupled e t) (hstep : step program io limit e = .more e') :
    ∃ t', step program io limit t = .more t' ∧ c.Coupled e' t' := by
  obtain ⟨hgranted, hadvance⟩ := advance_of_step hstep
  obtain ⟨t', hadvance', ht'⟩ := h.exists_advance hadvance
  refine ⟨t', hadvance'.step_eq fun n hn => ?_, ht'⟩
  rw [h.abreast.stats]
  exact hgranted n hn

theorem Coupled.exists_iterate (h : c.Coupled e t)
    (he : Loop.iterate (step program io limit) n e = .more e') :
    ∃ t', Loop.iterate (step program io limit) n t = .more t' ∧ c.Coupled e' t' :=
  Loop.exists_iterate_of_simulation (fun _ _ _ h hstep => h.exists_step hstep) h he

end Coupling

/-- Where a run ends, a run that differs from it in interruptions ends in the same way. -/
theorem Stop.exists_agrees (h : Stop program limit e outcome)
    (hcoupled : Coupling.interruptions.Coupled e t) :
    ∃ outcome', Stop program limit t outcome' ∧ outcome.Agrees outcome' := by
  -- A last step has no effect, so only the results are left to compare.
  suffices hstop : ∃ outcome', Stop program limit t outcome' ∧ outcome'.result = outcome.result by
    obtain ⟨outcome', hstop, hresult⟩ := hstop
    exact ⟨outcome', hstop, hresult, h.abreast.symm.trans (hcoupled.abreast.trans hstop.abreast)⟩
  obtain ⟨input, output, rfl, hinput, rfl⟩ := hcoupled
  let t : Execution := { e with input := input }
  cases h with
  | halted hi =>
    refine ⟨_, .halted hi, ?_⟩
    rw [finish, finish]
    cases e.output.flush <;> rfl
  | limited hi hlimit hn => exact ⟨_, .limited (e := t) hi hlimit hn, rfl⟩
  | failed hgranted hfailure =>
    cases hfailure with
    | read hi hreads hnext =>
      obtain ⟨rest', hnext', _⟩ := hinput.exists_next hnext
      exact ⟨_, .failed (e := t) hgranted (.read (e := t) hi hreads hnext'), rfl⟩
    | write hi hfull => exact ⟨_, .failed (e := t) hgranted (.write hi hfull), rfl⟩
    | untargeted hi hc ht => exact ⟨_, .failed (e := t) hgranted (.untargeted hi hc ht), rfl⟩

/-- Interruptions make no difference to a run. -/
theorem run_agrees (hcoupled : Coupling.interruptions.Coupled e t) :
    (run program io limit e).Agrees (run program io limit t) := by
  rcases run_cases program io limit e with ⟨n, hn, e', he', hstop⟩ | ⟨e', he', hrun⟩
  · obtain ⟨t', ht', hcoupled'⟩ := hcoupled.exists_iterate he'
    obtain ⟨outcome', hstop', hagrees⟩ := hstop.exists_agrees hcoupled'
    have hlast := (Loop.iterate_succ_of_more ht').trans (hstop'.step_eq io)
    rwa [run_of_iterate hlast hn]
  · obtain ⟨t', ht', hcoupled'⟩ := hcoupled.exists_iterate he'
    rw [hrun, run_of_iterate_more ht']
    exact ⟨rfl, hcoupled'.abreast⟩

/-- Wherever a run ends, some number of its instructions has led there. -/
theorem exists_iterate_abreast (program : Program) (io : InputModel) (limit : Option Nat)
    (first : Execution) :
    ∃ n e, Loop.iterate (step program io limit) n first = .more e ∧
      e.Abreast (run program io limit first).final := by
  rcases run_cases program io limit first with ⟨n, _, e, he, hstop⟩ | ⟨e, he, hrun⟩
  · exact ⟨n, e, he, hstop.abreast⟩
  · exact ⟨_, e, he, hrun ▸ .refl e⟩

/-- The counters tell what a run has taken from its input and added to its output, and how
much of its budget it has used. -/
structure Accounted (io : InputModel) (input : InputStream) (output : OutputStream)
    (e : Execution) : Prop where
  reads : ∃ bytes, input.bytes = bytes ++ e.input.bytes ∧ bytes.length = e.stats.reads
  consumed : e.input.consumed = input.consumed + e.stats.reads
  writes : ∃ bytes, e.output.written = output.written ++ bytes ∧ bytes.size = e.stats.writes
  budget : ∀ m, io.maxReads = some m → ∃ left, e.readsLeft = some left ∧ left + e.stats.reads = m

theorem accounted_start (io : InputModel) (tape : Tape) (input : InputStream)
    (output : OutputStream) : Accounted io input output (start io tape input output) where
  reads := ⟨[], rfl, rfl⟩
  consumed := rfl
  writes := ⟨#[], Array.append_empty.symm, rfl⟩
  budget m hm := ⟨m, hm, rfl⟩

variable {input rest : InputStream} {output : OutputStream}

/-- A read at the end of the input takes nothing from it. -/
theorem Accounted.ended (h : Accounted io input output e)
    (hnext : e.input.next = (.ok none, rest)) :
    Accounted io input output { e with input := rest } := by
  have hanswered := InputStream.answered_of_next hnext
  have hbytes : e.input.bytes = rest.bytes := hanswered.bytes
  exact ⟨hbytes ▸ h.reads, hanswered.consumed.trans h.consumed, h.writes, h.budget⟩

/-- A byte of input is counted and used up. -/
theorem Accounted.received (h : Accounted io input output e) (hreads : e.readsLeft ≠ some 0)
    {b : UInt8} (hnext : e.input.next = (.ok (some b), rest)) :
    Accounted io input output
      (store { e with input := rest, readsLeft := e.readsLeft.map (· - 1) } io (some b)) := by
  have hanswered := InputStream.answered_of_next hnext
  obtain ⟨bytes, hbytes, hlength⟩ := h.reads
  refine ⟨⟨bytes ++ [b], ?_, ?_⟩, ?_, h.writes, fun m hm => ?_⟩
  · rw [hbytes, hanswered.bytes, List.append_assoc]
    rfl
  · rw [List.length_append, hlength]
    rfl
  · exact hanswered.consumed.trans (congrArg (· + 1) h.consumed)
  · obtain ⟨left, hleft, hsum⟩ := h.budget m hm
    have hpos : left ≠ 0 := fun hzero => hreads (hzero ▸ hleft)
    refine ⟨left - 1, congrArg (Option.map (· - 1)) hleft, ?_⟩
    show left - 1 + (e.stats.reads + 1) = m
    omega

/-- A written byte is counted. -/
theorem Accounted.emit (h : Accounted io input output e) (byte : UInt8) :
    Accounted io input output (e.emit byte) := by
  obtain ⟨bytes, hbytes, hsize⟩ := h.writes
  refine ⟨h.reads, h.consumed, ⟨bytes.push byte, ?_, ?_⟩, h.budget⟩
  · rw [Array.append_push, ← hbytes]
    rfl
  · rw [Array.size_push, hsize]
    rfl

/-- A read that finds no byte is counted as a step only. -/
theorem Accounted.store_none (h : Accounted io input output e) :
    Accounted io input output (e.store io none) := by
  obtain ⟨tape, heq⟩ := e.exists_store_none io
  exact heq ▸ ⟨h.reads, h.consumed, h.writes, h.budget⟩

/-- Every instruction accounts for what it does. -/
theorem Accounted.of_advance (h : Accounted io input output e)
    (hadvance : Advance program io e e') : Accounted io input output e' := by
  cases hadvance with
  | left | right | increment | decrement | pass | jump =>
    exact ⟨h.reads, h.consumed, h.writes, h.budget⟩
  | spent => exact h.store_none
  | ended _ _ hnext => exact (h.ended hnext).store_none
  | received _ hreads hnext => exact h.received hreads hnext
  | write => exact h.emit _

/-- A run that halts leaves what its last instruction has left. -/
theorem Stop.final_of_ok (h : Stop program limit e outcome) {stats : RunStats}
    (hok : outcome.result = .ok stats) : outcome.final = e ∧ e.stats = stats := by
  cases h with
  | halted =>
    rw [finish] at hok ⊢
    split at hok
    · exact ⟨rfl, Except.ok.inj hok⟩
    · cases hok
  | limited | failed => cases hok

/-- A run that halts accounts for what it has done. -/
theorem accounted_of_ok {tape : Tape} {stats : RunStats}
    (hok : (run program io limit (start io tape input output)).result = .ok stats) :
    Accounted io input output (run program io limit (start io tape input output)).final ∧
      (run program io limit (start io tape input output)).final.stats = stats := by
  rcases run_cases program io limit (start io tape input output) with
    ⟨n, _, e, he, hstop⟩ | ⟨e, _, hrun⟩
  · obtain ⟨hfinal, hstats⟩ := hstop.final_of_ok hok
    rw [hfinal]
    refine ⟨Loop.iterate_more_invariant (fun _ _ h hstep => ?_) (accounted_start ..) he, hstats⟩
    exact h.of_advance (advance_of_step hstep).2
  · rw [hrun] at hok
    cases hok

/-- A run on disturbed streams. Interruptions of its input, more of them or fewer, make no
difference to it. However it ends, also if a stream has failed, it leaves what the run
without the faults has left behind the same number of instructions. If it halts, then its
counters tell the bytes taken and written, within the budget. -/
theorem run_on_disturbed_streams (program : Program) (io : InputModel) (limit : Option Nat)
    (tape : Tape) (input : InputStream) (output : OutputStream) {outcome : RunOutcome}
    (hrun : run program io limit (start io tape input output) = outcome) :
    (∀ other : InputStream, other.results = input.results → other.consumed = input.consumed →
      outcome.Agrees (run program io limit (start io tape other output))) ∧
    (∀ calm, input.AgreesUntilFault calm →
      ∃ e, Loop.iterate (step program io limit) outcome.final.stats.steps
          (start io tape calm output.faultless) = .more e ∧
        outcome.final.Abreast e) ∧
    ∀ stats, outcome.result = .ok stats →
      (∃ bytes, outcome.final.output.written = output.written ++ bytes ∧
        bytes.size = stats.writes) ∧
      (∃ bytes, input.bytes = bytes ++ outcome.final.input.bytes ∧
        bytes.length = stats.reads) ∧
      outcome.final.input.consumed = input.consumed + stats.reads ∧
      ∀ m, io.maxReads = some m → stats.reads ≤ m := by
  subst hrun
  refine ⟨fun other hresults hconsumed => ?_, fun calm hcalm => ?_, fun stats hok => ?_⟩
  · exact run_agrees ⟨other, output, rfl, .of_results hresults hconsumed, rfl⟩
  · have hcoupled : Coupling.faults.Coupled (start io tape input output)
        (start io tape calm output.faultless) := ⟨calm, output.faultless, rfl, hcalm, rfl⟩
    obtain ⟨n, e, he, hfinal⟩ :=
      exists_iterate_abreast program io limit (start io tape input output)
    obtain ⟨t, ht, hcoupled'⟩ := hcoupled.exists_iterate he
    have hn : (start io tape input output).stats.steps + n = n := Nat.zero_add n
    rw [hfinal.stats, steps_of_iterate he, hn]
    exact ⟨t, ht, hfinal.symm.trans hcoupled'.abreast⟩
  · obtain ⟨haccounted, rfl⟩ := accounted_of_ok hok
    refine ⟨haccounted.writes, haccounted.reads, haccounted.consumed, fun m hm => ?_⟩
    obtain ⟨left, _, hsum⟩ := haccounted.budget m hm
    exact hsum ▸ Nat.le_add_left _ left

/-- Copy two bytes. -/
def relay : Program := .ofTables [.read, .write, .read, .write] [] []

/-- A budget of two bytes. -/
def twoReads : InputModel := { maxReads := some 2 }

/-- The run of it on an input, at its start. -/
def relayed (input : InputStream) : Execution := start twoReads (.blank {}) input {}

/-- The first call is interrupted and the third one fails, which makes no difference to two
interruptions of the call that fails. The first byte has been copied, as it is by half of the
run on the bytes alone, and that one copies both. -/
theorem relay_on_disturbed_streams :
    (run relay twoReads none (relayed (.ofSchedule [7, 8] [0] (some 2) 8))).result =
        .error (.stream .read) ∧
      (run relay twoReads none (relayed (.ofSchedule [7, 8] [0] (some 2) 8))).Agrees
        (run relay twoReads none (relayed ⟨[.byte 7, .interrupted, .interrupted, .fault], 0, 0⟩)) ∧
      (∃ e, Loop.iterate (step relay twoReads none) 2 (relayed (.ofBytes [7, 8])) = .more e ∧
        (run relay twoReads none (relayed (.ofSchedule [7, 8] [0] (some 2) 8))).final.Abreast e ∧
        e.output.written = #[7]) ∧
      (run relay twoReads none (relayed (.ofBytes [7, 8]))).final.input.consumed = 2 := by
  obtain ⟨hsame, hclean, _⟩ := run_on_disturbed_streams relay twoReads none (.blank {})
    (.ofSchedule [7, 8] [0] (some 2) 8) {} rfl
  obtain ⟨_, _, hcounts⟩ := run_on_disturbed_streams relay twoReads none (.blank {})
    (.ofBytes [7, 8]) {} rfl
  obtain ⟨e, he, habreast⟩ := hclean (.ofBytes [7, 8])
    (InputStream.agreesUntilFault_ofSchedule [7, 8] [0] (some 2) 8)
  refine ⟨rfl, hsame _ rfl rfl, ⟨e, he, habreast, ?_⟩, (hcounts ⟨4, 2, 2⟩ rfl).2.2.1⟩
  rw [habreast.written]
  rfl

end Execution

end TapeReach
