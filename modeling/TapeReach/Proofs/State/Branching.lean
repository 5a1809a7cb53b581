import TapeReach.Proofs.Counterexample

/-!
# How states branch

A state has no successor if its run has halted or waits for a byte that never
comes. It has one successor for each byte if it may read one, and otherwise
exactly one. A successor differs from the state in what its instruction is
for and in nothing else: a move changes the pointer, counting and reading
change the current cell, and reading changes the budget. There is an overflow
instead where no position follows, and at a move to the right where no word
follows the pointer.

A counterexample that stops does so in a state without successors. On a
program that was read from a text it stops at the end of the program or at a
read that is blocked, and at the end of the program wherever reads are never
blocked.
-/

namespace TapeReach

/-- A read is blocked when the budget is used up and exhausted input leaves the cell alone. -/
theorem InputModel.possibleReads_eq_blocked {io : InputModel} {reads : Option Nat} :
    io.possibleReads reads = .blocked ↔ reads = some 0 ∧ io.noChangeOnEof = true := by
  by_cases hreads : reads = some 0
  · subst hreads
    cases hio : io.noChangeOnEof <;> simp [possibleReads, hio]
  · rw [possibleReads_eq_any hreads]
    refine iff_of_false (fun h => ?_) fun h => hreads h.1
    cases h

namespace State

/-- Nothing but what the instruction is for has changed from the first state to the second. -/
structure ChangedBy (i : Instruction) (s t : State) : Prop where
  /-- Only a move changes the pointer. -/
  pointer : t.pointer ≠ s.pointer → i = .moveLeft ∨ i = .moveRight
  /-- Only the current cell changes, and only by counting or reading. -/
  cell : ∀ p, t.cell p ≠ s.cell p →
    p = s.pointer ∧ (i = .increment ∨ i = .decrement ∨ i = .read)
  /-- Only a read changes the budget. -/
  budget : t.readsLeft ≠ s.readsLeft → i = .read
  /-- Digest and fingerprint keep to the configuration. -/
  canonical : s.Canonical → t.Canonical

variable {i : Instruction} {s : State}

/-- A jump changes nothing but the position. -/
theorem changedBy_jump (i : Instruction) (s : State) (pc : Nat) : ChangedBy i s (s.jump pc) where
  pointer h := absurd rfl h
  cell _ h := absurd rfl h
  budget h := absurd rfl h
  canonical h := h.jump pc

/-- A move changes the pointer. -/
theorem changedBy_move (hi : i = .moveLeft ∨ i = .moveRight) (pc pointer : Nat) :
    ChangedBy i s (s.move pc pointer) where
  pointer _ := hi
  cell _ h := absurd rfl h
  budget h := absurd rfl h
  canonical h := h.move pc pointer

/-- A store changes the current cell, and a read the budget. -/
theorem changedBy_store (hi : i = .increment ∨ i = .decrement ∨ i = .read) {readsLeft : Option Nat}
    (hreads : readsLeft ≠ s.readsLeft → i = .read) (pc : Nat) (value : UInt8) :
    ChangedBy i s (s.store pc value readsLeft) where
  pointer h := absurd rfl h
  cell p h := by
    refine ⟨by_contra fun hp => h ?_, hi⟩
    rw [cell_store, if_neg hp]
  budget := hreads
  canonical h := h.store pc value readsLeft

/-- After a read the current cell holds the byte. -/
theorem current_receive (s : State) (pc : Nat) (value : UInt8) :
    (s.receive pc value).current = value := by
  change (s.receive pc value).cell s.pointer = value
  rw [receive, cell_store, if_pos rfl]

end State

namespace Program

variable {program : Program} {io : InputModel} {s t : State} {next : List State}

/-- A transition changes what the instruction at the position is for. -/
theorem Transition.exists_changedBy (h : Transition program io s t) :
    ∃ i, program.instructionAt? s.pc = some i ∧ State.ChangedBy i s t := by
  cases h with
  | left hi => exact ⟨_, hi, State.changedBy_move (.inl rfl) _ _⟩
  | right hi => exact ⟨_, hi, State.changedBy_move (.inr rfl) _ _⟩
  | increment hi => exact ⟨_, hi, State.changedBy_store (.inl rfl) (absurd rfl) _ _⟩
  | decrement hi => exact ⟨_, hi, State.changedBy_store (.inr (.inl rfl)) (absurd rfl) _ _⟩
  | read hi byte _ =>
    exact ⟨_, hi, State.changedBy_store (.inr (.inr rfl)) (fun _ => rfl) _ byte⟩
  | write hi | pass hi _ | jump hi _ _ => exact ⟨_, hi, State.changedBy_jump _ s _⟩

/-- Which successors a state has. -/
inductive Branching (program : Program) (io : InputModel) (s : State) : List State → Prop
  /-- The run has halted. -/
  | halted (hpc : program.size ≤ s.pc) : Branching program io s []
  /-- A read never completes. -/
  | blocked (hi : program.instructionAt? s.pc = some .read) (hreads : s.readsLeft = some 0)
      (hio : io.noChangeOnEof = true) : Branching program io s []
  /-- A read finds any byte. -/
  | any (hi : program.instructionAt? s.pc = some .read) (hreads : s.readsLeft ≠ some 0) :
      Branching program io s (PossibleReads.any.toList.map (s.receive (s.pc + 1)))
  /-- A read finds that the input is exhausted, or the instruction does not read. -/
  | single {i : Instruction} (hi : program.instructionAt? s.pc = some i)
      (hread : i = .read → s.readsLeft = some 0 ∧ io.noChangeOnEof = false) (t : State) :
      Branching program io s [t]

/-- A read branches as its input model allows. -/
theorem branching_of_read (hi : program.instructionAt? s.pc = some .read) :
    Branching program io s
      ((io.possibleReads s.readsLeft).toList.map (s.receive (s.pc + 1))) := by
  by_cases hreads : s.readsLeft = some 0
  · cases hio : io.noChangeOnEof with
    | true =>
      rw [InputModel.possibleReads_eq_blocked.mpr ⟨hreads, hio⟩]
      exact .blocked hi hreads hio
    | false =>
      have heof : io.possibleReads s.readsLeft = .eof io.eofByte := by
        rw [hreads, InputModel.possibleReads, hio, if_neg Bool.false_ne_true]
      rw [heof]
      exact .single hi (fun _ => ⟨hreads, hio⟩) _
  · rw [InputModel.possibleReads_eq_any hreads]
    exact .any hi hreads

/-- The successors of a state, if they are known, are one of the four kinds. -/
theorem branching_of_ok (h : program.successors io s = .ok next) : Branching program io s next := by
  cases hi : program.instructionAt? s.pc with
  | none =>
    rw [eq_nil_of_halted hi h]
    exact .halted (Array.getElem?_eq_none_iff.mp hi)
  | some i =>
    rw [successors_of_instruction hi] at h
    cases i with
    | read =>
      cases h
      exact branching_of_read hi
    | moveLeft | increment | decrement | write =>
      cases h
      exact .single hi (fun hread => nomatch hread) _
    | moveRight =>
      obtain ⟨right, _, rfl⟩ := right_cases h
      exact .single hi (fun hread => nomatch hread) _
    | jumpIfZero | jumpIfNonZero =>
      rcases branch_cases h with ⟨_, rfl⟩ | ⟨_, _, _, rfl⟩
      · exact .single hi (fun hread => nomatch hread) _
      · exact .single hi (fun hread => nomatch hread) _

/-- Halted runs and blocked reads have no successor, and no other state lacks one. -/
theorem Branching.eq_nil_iff (h : Branching program io s next) :
    next = [] ↔ program.size ≤ s.pc ∨ program.instructionAt? s.pc = some .read ∧
      s.readsLeft = some 0 ∧ io.noChangeOnEof = true := by
  cases h with
  | halted hpc => exact iff_of_true rfl (.inl hpc)
  | blocked hi hreads hio => exact iff_of_true rfl (.inr ⟨hi, hreads, hio⟩)
  | any hi hreads =>
    refine iff_of_false (by simp [PossibleReads.toList]) ?_
    rintro (hpc | ⟨_, hspent, _⟩)
    · exact Nat.not_le_of_lt (next_le_size hi) hpc
    · exact hreads hspent
  | single hi hread t =>
    refine iff_of_false (List.cons_ne_nil t []) ?_
    rintro (hpc | ⟨hi', _, hio⟩)
    · exact Nat.not_le_of_lt (next_le_size hi) hpc
    · rw [hi, Option.some.injEq] at hi'
      rw [(hread hi').2] at hio
      exact Bool.false_ne_true hio

/-- The current cells behind a read of any byte are all the bytes, ascending. -/
theorem map_current_any (s : State) (pc : Nat) :
    (PossibleReads.any.toList.map (s.receive pc)).map (·.current.toNat) = List.range 256 := by
  have hbytes : PossibleReads.any.toList.map UInt8.toNat = List.range 256 := by decide +kernel
  rw [List.map_map, ← hbytes]
  refine List.map_congr_left fun byte _ => ?_
  rw [Function.comp_apply, State.current_receive]

/-- A read within its budget leads to all the bytes in order, and nothing else does. -/
theorem Branching.map_current_iff (h : Branching program io s next) :
    next.map (·.current.toNat) = List.range 256 ↔
      program.instructionAt? s.pc = some .read ∧ s.readsLeft ≠ some 0 := by
  cases h with
  | halted hpc =>
    refine iff_of_false (by decide) fun ⟨hi, _⟩ => ?_
    exact Nat.not_le_of_lt (next_le_size hi) hpc
  | blocked _ hreads _ => exact iff_of_false (by decide) fun h => h.2 hreads
  | any hi hreads => exact iff_of_true (map_current_any s _) ⟨hi, hreads⟩
  | single hi hread t =>
    refine iff_of_false (fun h => ?_) fun ⟨hi', hreads⟩ => ?_
    · have hlength := congrArg List.length h
      rw [List.length_map, List.length_range] at hlength
      cases hlength
    · rw [hi, Option.some.injEq] at hi'
      exact hreads (hread hi').1

/-- Every other state has one successor. -/
theorem Branching.exists_eq_singleton (h : Branching program io s next) (hne : next ≠ [])
    (hread : ¬ (program.instructionAt? s.pc = some .read ∧ s.readsLeft ≠ some 0)) :
    ∃ t, next = [t] := by
  cases h with
  | halted _ => exact absurd rfl hne
  | blocked _ _ _ => exact absurd rfl hne
  | any hi hreads => exact absurd ⟨hi, hreads⟩ hread
  | single _ _ t => exact ⟨t, rfl⟩

end Program

/-- A counterexample of a parsed program that stops has come to the end of the program or
to a blocked read. -/
theorem Program.last_of_deadEnd {source : String} {program : Program} {label : String}
    {settings : Settings} {polls : Polls} {analysis : Analysis} {lasso : Lasso State}
    (hsource : parse source = .ok program)
    (h : checkReach program label settings polls = .ok analysis)
    (hverdict : analysis.verdict = .counterexample lasso) (hkind : lasso.kind = .deadEnd) :
    ∃ last, lasso.cycle = [last] ∧
      (last.pc = program.size ∨ program.instructionAt? last.pc = some .read ∧
        last.readsLeft = some 0 ∧ settings.io.noChangeOnEof = true) := by
  obtain ⟨target, _, hlasso⟩ := refutes_of_checkReach h hverdict
  obtain ⟨last, hcycle, hstuck⟩ := hlasso.stops hkind
  refine ⟨last, hcycle, ?_⟩
  have hmem : last ∈ lasso.states := by
    rw [Lasso.states, hcycle]
    exact List.mem_append_right _ (List.mem_singleton_self last)
  refine ((branching_of_ok hstuck).eq_nil_iff.mp rfl).imp_left fun hpc => ?_
  exact Nat.le_antisymm (pc_le_of_parse hsource (hlasso.reachable hmem)) hpc

/-- The successors of a state of an accepted program are known, unless no word follows its
position or, at a move to the right, its pointer: then there is an overflow. There are none
exactly if the run has halted or a read is blocked, there is one for each byte, in ascending
order of the bytes, exactly if a read may find a byte, and otherwise there is exactly one.
Each differs from the state only in its position and in what the instruction is for. So a
counterexample of a parsed program that stops has come to the end of the program or to a
blocked read, and to the end of the program where no read is blocked. -/
theorem Program.successors_shape (program : Program) :
    (∀ (io : InputModel) (s : State), program.validate = .ok () →
      (program.Overflows s → program.successors io s = .error .overflow) ∧
      (¬ program.Overflows s → ∃ next, program.successors io s = .ok next ∧
        (next = [] ↔ program.size ≤ s.pc ∨ program.instructionAt? s.pc = some .read ∧
          s.readsLeft = some 0 ∧ io.noChangeOnEof = true) ∧
        (next.map (·.current.toNat) = List.range 256 ↔
          program.instructionAt? s.pc = some .read ∧ s.readsLeft ≠ some 0) ∧
        (next ≠ [] → ¬ (program.instructionAt? s.pc = some .read ∧ s.readsLeft ≠ some 0) →
          ∃ t, next = [t]) ∧
        ∀ t ∈ next, ∃ i, program.instructionAt? s.pc = some i ∧ State.ChangedBy i s t)) ∧
    ∀ (source label : String) (settings : Settings) (polls : Polls) (analysis : Analysis)
      (lasso : Lasso State),
      parse source = .ok program → checkReach program label settings polls = .ok analysis →
      analysis.verdict = .counterexample lasso → lasso.kind = .deadEnd →
      ∃ last, lasso.cycle = [last] ∧
        (last.pc = program.size ∨ program.instructionAt? last.pc = some .read ∧
          last.readsLeft = some 0 ∧ settings.io.noChangeOnEof = true) ∧
        (settings.io.noChangeOnEof = false → last.pc = program.size) := by
  refine ⟨fun io s h => ⟨fun hs => hs.successors_eq io, fun hs => ?_⟩, ?_⟩
  · obtain ⟨next, hnext⟩ := successors_ok h hs io
    have hbranching := branching_of_ok hnext
    refine ⟨next, hnext, hbranching.eq_nil_iff, hbranching.map_current_iff,
      hbranching.exists_eq_singleton, fun t ht => ?_⟩
    exact (transition_of_leads ⟨next, hnext, ht⟩).exists_changedBy
  · intro source label settings polls analysis lasso hsource h hverdict hkind
    obtain ⟨last, hcycle, hlast⟩ := last_of_deadEnd hsource h hverdict hkind
    refine ⟨last, hcycle, hlast, fun hio => hlast.resolve_right ?_⟩
    rintro ⟨_, _, hblocked⟩
    rw [hio] at hblocked
    exact Bool.false_ne_true hblocked

/-- Move to the right. -/
def rightward : Program := .ofTables [.moveRight] [] []

/-- The pointer is the greatest word. -/
def farRight : State := (State.initial none).move 0 (UInt64.size - 1)

/-- A single move to the right is accepted and has no successor, not even where its run has not
halted, when the pointer is the greatest word. -/
theorem rightward_overflows :
    Program.parse ">" = .ok rightward ∧ rightward.validate = .ok () ∧
      farRight.pc < rightward.size ∧ rightward.instructionAt? farRight.pc = some .moveRight ∧
      rightward.successors {} farRight = .error .overflow := by
  have hi : rightward.instructionAt? farRight.pc = some .moveRight := by rfl
  have hpointer : UInt64.size ≤ farRight.pointer + 1 := by decide
  have hoverflows : rightward.Overflows farRight := .inr ⟨hi, hpointer⟩
  exact ⟨by rfl, by rfl, by decide, hi, hoverflows.successors_eq {}⟩

/-- No byte may be read, and exhausted input leaves the cell alone. -/
def silence : Settings := { io := { maxReads := some 0, noChangeOnEof := true } }

/-- The run that waits for its first byte. -/
def waitingLasso : Lasso State := ⟨[], [.initial (some 0)], .deadEnd⟩

/-- The check finds the run that waits for its first byte. -/
theorem checkReach_waiting :
    checkReach echo "end" silence {} = .ok ⟨.counterexample waitingLasso, ⟨1, 1, 0⟩⟩ := by
  have hlabel : echo.hasLabel "end" = true := by rfl
  have hvalid : echo.validate = .ok () := by rfl
  obtain ⟨target, hcheck⟩ := Program.exists_checkTarget hvalid hlabel
  have hfirst : target.holdsAt 0 = false := by
    refine Bool.eq_false_iff.mpr fun hat => ?_
    exact absurd ((Program.checkTarget_holdsAt_iff (by decide) hcheck 0).mp hat).2 (by decide)
  have hends : Search.EndsWithin (echo.stateSpace silence.io) target.holds {} {} 0
      ⟨.ok (.counterexample waitingLasso), ⟨1, 1, 0⟩⟩ := by
    have hinitial : ¬ target.holds (echo.stateSpace silence.io).initial = true :=
      Bool.eq_false_iff.mp hfirst
    refine .inl ?_
    rw [Search.start, if_neg hinitial]
    rfl
  exact checkReach_eq_ok.mpr ⟨target, hcheck, Program.search_eq_of_endsWithin hends (by decide)⟩

/-- With one byte to come a read leads to all the bytes. Without any it is blocked, and the
check stops there. -/
theorem echo_shape :
    echo.validate = .ok () ∧
      (∃ next, echo.successors { maxReads := some 1 } (.initial (some 1)) = .ok next ∧
        next.map (·.current.toNat) = List.range 256) ∧
      (∃ next, echo.successors silence.io (.initial (some 0)) = .ok next ∧ next = []) ∧
      Program.parse ",._end_" = .ok echo ∧
      checkReach echo "end" silence {} = .ok ⟨.counterexample waitingLasso, ⟨1, 1, 0⟩⟩ ∧
      ∃ last, waitingLasso.cycle = [last] ∧
        (last.pc = 2 ∨ echo.instructionAt? last.pc = some .read ∧ last.readsLeft = some 0 ∧
          silence.io.noChangeOnEof = true) := by
  have hsource : Program.parse ",._end_" = .ok echo := by rfl
  have hvalid : echo.validate = .ok () := by rfl
  have hinside : ∀ reads, ¬ echo.Overflows (.initial reads) := by
    rintro reads (hnext | ⟨hi, _⟩)
    · exact hnext (.inl (Nat.zero_le _))
    · cases hi
  obtain ⟨hshape, hstops⟩ := Program.successors_shape echo
  obtain ⟨next, hnext, _, hbytes, _⟩ :=
    (hshape { maxReads := some 1 } (.initial (some 1)) hvalid).2 (hinside _)
  obtain ⟨none, hnone, hblocked, _⟩ := (hshape silence.io (.initial (some 0)) hvalid).2 (hinside _)
  obtain ⟨last, hcycle, hlast, _⟩ := hstops _ _ _ _ _ _ hsource checkReach_waiting rfl rfl
  exact ⟨hvalid, ⟨next, hnext, hbytes.mpr ⟨rfl, nofun⟩⟩,
    ⟨none, hnone, hblocked.mpr (.inr ⟨rfl, rfl, rfl⟩)⟩, hsource, checkReach_waiting, last, hcycle,
    hlast⟩

end TapeReach
