import TapeReach.Proofs.Reachability
import TapeReach.Proofs.State.Canonical
import TapeReach.State.Space

/-!
# Transitions of a program

One transition executes the instruction at the position of a state. The
relation here lists what each instruction can lead to, with its conditions,
and is the one place that opens the successor function. From it follow what
all reachable states have in common: they are canonical, their pointer and
their cells lie on the tape, their position is within the program or a jump
target, and their budget is the initial one less the reads made. The
successors of such a state are known, unless a jump has led to the greatest
word or a bracket has no jump target.
-/

namespace TapeReach

/-- The next word is known for all words but the greatest. -/
theorem nextWord_eq_ok {word next : Nat} :
    nextWord word = .ok next ↔ word + 1 < UInt64.size ∧ next = word + 1 := by
  unfold nextWord
  split
  · rename_i h
    rw [Except.ok.injEq, and_iff_right h, eq_comm]
  · rename_i h
    exact iff_of_false (fun heq => nomatch heq) fun hnext => h hnext.1

/-- The cell to the right is known for all pointers but the greatest word. -/
theorem State.rightPointer_eq_ok {s : State} {right : Nat} :
    s.rightPointer = .ok right ↔ s.pointer + 1 < UInt64.size ∧
      right = if defaultTapeLength ≤ s.pointer + 1 then 0 else s.pointer + 1 := by
  by_cases h : s.pointer + 1 < UInt64.size
  · rw [rightPointer, nextWord_eq_ok.mpr ⟨h, rfl⟩, and_iff_right h]
    change Except.ok _ = Except.ok right ↔ _
    rw [Except.ok.injEq, eq_comm]
  · rw [rightPointer, nextWord, if_neg h]
    exact iff_of_false (fun heq => nomatch heq) fun hright => h hright.1

namespace Program

/-- What the instruction at the position of `s` can lead to. -/
inductive Transition (program : Program) (io : InputModel) (s : State) : State → Prop
  | left (hi : program.instructionAt? s.pc = some .moveLeft) :
      Transition program io s (s.move (s.pc + 1) s.leftPointer)
  | right (hi : program.instructionAt? s.pc = some .moveRight) {right : Nat}
      (hright : s.rightPointer = .ok right) :
      Transition program io s (s.move (s.pc + 1) right)
  | increment (hi : program.instructionAt? s.pc = some .increment) :
      Transition program io s (s.write (s.pc + 1) (s.current + 1))
  | decrement (hi : program.instructionAt? s.pc = some .decrement) :
      Transition program io s (s.write (s.pc + 1) (s.current - 1))
  | read (hi : program.instructionAt? s.pc = some .read) (byte : UInt8)
      (hb : byte ∈ (io.possibleReads s.readsLeft).toList) :
      Transition program io s (s.receive (s.pc + 1) byte)
  | write (hi : program.instructionAt? s.pc = some .write) :
      Transition program io s (s.jump (s.pc + 1))
  | pass {i : Instruction} (hi : program.instructionAt? s.pc = some i)
      (hc : i = .jumpIfZero ∧ s.current ≠ 0 ∨ i = .jumpIfNonZero ∧ s.current = 0) :
      Transition program io s (s.jump (s.pc + 1))
  | jump {i : Instruction} (hi : program.instructionAt? s.pc = some i)
      (hc : i = .jumpIfZero ∧ s.current = 0 ∨ i = .jumpIfNonZero ∧ s.current ≠ 0) {target : Nat}
      (ht : program.jumpTarget? s.pc = some target) : Transition program io s (s.jump target)

variable {program : Program} {io : InputModel} {s t : State}

/-- Some position follows: this one is within the program or at its end, or it is not the
greatest word. -/
def HasNext (program : Program) (pc : Nat) : Prop := pc ≤ program.size ∨ pc + 1 < UInt64.size

/-- The next position is the one that follows. -/
theorem nextPosition_eq_ok {pc next : Nat} :
    program.nextPosition pc = .ok next ↔ program.HasNext pc ∧ next = pc + 1 := by
  unfold nextPosition HasNext
  split
  · rename_i h
    rw [Except.ok.injEq, and_iff_right (.inl h), eq_comm]
  · rename_i h
    rw [nextWord_eq_ok, or_iff_right h]

/-- Where no position follows, there is an overflow. -/
theorem nextPosition_eq_error {pc : Nat} (h : ¬ program.HasNext pc) :
    program.nextPosition pc = .error .overflow := by
  obtain ⟨hsize, hword⟩ := not_or.mp h
  rw [nextPosition, if_neg hsize, nextWord, if_neg hword]

/-- A state at an instruction is followed by what the instruction leads to. -/
theorem successors_of_instruction {i : Instruction} (hi : program.instructionAt? s.pc = some i) :
    program.successors io s = program.perform io s (s.pc + 1) i := by
  have hpc : s.pc ≤ program.size := Nat.le_of_lt (Array.getElem?_eq_some_iff.mp hi).1
  rw [successors, nextPosition_eq_ok.mpr ⟨.inl hpc, rfl⟩, hi]
  rfl

/-- A state behind the last instruction has no successors, as long as some position follows. -/
theorem successors_of_halted (h : program.size ≤ s.pc) (hnext : program.HasNext s.pc) :
    program.successors io s = .ok [] := by
  have hnone : program.instructionAt? s.pc = none := Array.getElem?_eq_none_iff.mpr h
  rw [successors, nextPosition_eq_ok.mpr ⟨hnext, rfl⟩, hnone]
  rfl

/-- A state with known successors is followed by some position. -/
theorem hasNext_of_ok {next : List State} (h : program.successors io s = .ok next) :
    program.HasNext s.pc := by
  by_contra hnot
  rw [successors, nextPosition_eq_error hnot] at h
  cases h

/-- A state behind the last instruction has no other successors. -/
theorem eq_nil_of_halted (hi : program.instructionAt? s.pc = none) {next : List State}
    (h : program.successors io s = .ok next) : next = [] := by
  rw [successors_of_halted (Array.getElem?_eq_none_iff.mp hi) (hasNext_of_ok h)] at h
  exact (Except.ok.inj h).symm

/-- A bracket leads to the next position, or to its jump target when it is taken. -/
theorem branch_cases {pc : Nat} {taken : Bool} {next : List State}
    (h : (program.branch s pc taken).map ([·]) = .ok next) :
    (taken = false ∧ next = [s.jump pc]) ∨
      (taken = true ∧
        ∃ target, program.jumpTarget? s.pc = some target ∧ next = [s.jump target]) := by
  cases taken with
  | false =>
    simp only [branch, Bool.false_eq_true, if_false, Except.map, Except.ok.injEq] at h
    exact .inl ⟨rfl, h.symm⟩
  | true =>
    simp only [branch, if_true] at h
    cases ht : program.jumpTarget? s.pc with
    | none => simp only [ht, Except.map, reduceCtorEq] at h
    | some target =>
      simp only [ht, Except.map, Except.ok.injEq] at h
      exact .inr ⟨rfl, target, rfl, h.symm⟩

/-- A move to the right leads to one state, if the cell there is known. -/
theorem right_cases {pc : Nat} {next : List State}
    (h : s.rightPointer.map (fun right => [s.move pc right]) = .ok next) :
    ∃ right, s.rightPointer = .ok right ∧ next = [s.move pc right] := by
  cases hright : s.rightPointer with
  | error e =>
    rw [hright] at h
    cases h
  | ok right =>
    rw [hright] at h
    cases h
    exact ⟨right, rfl, rfl⟩

/-- The only member of a list with one state. -/
theorem eq_of_mem_ok {u : State} {next : List State}
    (h : (.ok [u] : Except CheckError (List State)) = .ok next) (ht : t ∈ next) : t = u := by
  cases h
  exact List.mem_singleton.mp ht

/-- The successors of a state are what its instruction can lead to. -/
theorem transition_of_leads (h : (program.stateSpace io).Leads s t) :
    Transition program io s t := by
  obtain ⟨next, hnext, hmem⟩ := h
  change program.successors io s = .ok next at hnext
  cases hi : program.instructionAt? s.pc with
  | none =>
    rw [eq_nil_of_halted hi hnext] at hmem
    exact (List.not_mem_nil hmem).elim
  | some i =>
    rw [successors_of_instruction hi] at hnext
    cases i with
    | moveLeft => exact eq_of_mem_ok hnext hmem ▸ .left hi
    | moveRight =>
      obtain ⟨right, hright, rfl⟩ := right_cases hnext
      rw [List.mem_singleton.mp hmem]
      exact .right hi hright
    | increment => exact eq_of_mem_ok hnext hmem ▸ .increment hi
    | decrement => exact eq_of_mem_ok hnext hmem ▸ .decrement hi
    | read =>
      simp only [perform, Except.ok.injEq] at hnext
      rw [← hnext] at hmem
      obtain ⟨byte, hb, rfl⟩ := List.mem_map.mp hmem
      exact .read hi byte hb
    | write => exact eq_of_mem_ok hnext hmem ▸ .write hi
    | jumpIfZero =>
      rcases branch_cases hnext with ⟨hc, rfl⟩ | ⟨hc, target, ht, rfl⟩
      · rw [List.mem_singleton.mp hmem]
        exact .pass hi (.inl ⟨rfl, by simpa using hc⟩)
      · rw [List.mem_singleton.mp hmem]
        exact .jump hi (.inl ⟨rfl, by simpa using hc⟩) ht
    | jumpIfNonZero =>
      rcases branch_cases hnext with ⟨hc, rfl⟩ | ⟨hc, target, ht, rfl⟩
      · rw [List.mem_singleton.mp hmem]
        exact .pass hi (.inr ⟨rfl, by simpa using hc⟩)
      · rw [List.mem_singleton.mp hmem]
        exact .jump hi (.inr ⟨rfl, by simpa using hc⟩) ht

/-- In a program that has been accepted every bracket has a jump target. -/
theorem exists_jumpTarget (h : program.validate = .ok ()) {pc : Nat} {i : Instruction}
    (hi : program.instructionAt? pc = some i) (hj : i.isJump = true) :
    ∃ target, program.jumpTarget? pc = some target := by
  have hpc : pc < program.size := (Array.getElem?_eq_some_iff.mp hi).1
  unfold validate at h
  split at h
  · cases h
  · rename_i hnone
    have hfind := List.find?_eq_none.mp hnone pc (List.mem_range.mpr hpc)
    have hne : program.jumpTarget? pc ≠ none := by simpa [hi, hj] using hfind
    exact Option.ne_none_iff_exists'.mp hne

/-- A bracket with a jump target leads to one state. -/
theorem branch_ok {target : Nat} (ht : program.jumpTarget? s.pc = some target) (pc : Nat)
    (taken : Bool) : ∃ u, (program.branch s pc taken).map ([·]) = .ok [u] := by
  cases taken with
  | false => exact ⟨_, rfl⟩
  | true =>
    refine ⟨s.jump target, ?_⟩
    simp only [branch, if_true, ht, Except.map]

/-- The state needs a word that does not exist: the position behind its own, or the cell to the
right of its pointer. -/
def Overflows (program : Program) (s : State) : Prop :=
  ¬ program.HasNext s.pc ∨
    program.instructionAt? s.pc = some .moveRight ∧ UInt64.size ≤ s.pointer + 1

/-- A state that needs a word that does not exist has no known successors. -/
theorem Overflows.successors_eq (h : program.Overflows s) (io : InputModel) :
    program.successors io s = .error .overflow := by
  rcases h with hnext | ⟨hi, hpointer⟩
  · rw [successors, nextPosition_eq_error hnext]
    rfl
  · rw [successors_of_instruction hi, perform, State.rightPointer, nextWord,
      if_neg (Nat.not_lt_of_le hpointer)]
    rfl

/-- The cell to the right is known where a move leads there without an overflow. -/
theorem exists_rightPointer (hs : ¬ program.Overflows s)
    (hi : program.instructionAt? s.pc = some .moveRight) : ∃ right, s.rightPointer = .ok right := by
  have hpointer : s.pointer + 1 < UInt64.size :=
    Nat.lt_of_not_le fun hle => hs (.inr ⟨hi, hle⟩)
  exact ⟨_, State.rightPointer_eq_ok.mpr ⟨hpointer, rfl⟩⟩

/-- A program that has been accepted knows the successors of every state that needs no word that
does not exist. -/
theorem successors_ok (h : program.validate = .ok ()) (hs : ¬ program.Overflows s)
    (io : InputModel) : ∃ next, program.successors io s = .ok next := by
  have hpc : program.HasNext s.pc := not_not.mp fun hnot => hs (.inl hnot)
  cases hi : program.instructionAt? s.pc with
  | none => exact ⟨[], successors_of_halted (Array.getElem?_eq_none_iff.mp hi) hpc⟩
  | some i =>
    rw [successors_of_instruction hi]
    cases i with
    | moveLeft | increment | decrement | write | read => exact ⟨_, rfl⟩
    | moveRight =>
      obtain ⟨right, hright⟩ := exists_rightPointer hs hi
      exact ⟨_, by rw [perform, hright]; rfl⟩
    | jumpIfZero | jumpIfNonZero =>
      obtain ⟨target, ht⟩ := exists_jumpTarget h hi rfl
      obtain ⟨u, hu⟩ := branch_ok ht (s.pc + 1) _
      exact ⟨[u], hu⟩

/-- Only a state that needs a word that does not exist ends in an overflow. -/
theorem overflows_of_error (h : program.successors io s = .error .overflow) :
    program.Overflows s := by
  by_contra hs
  have hpc : program.HasNext s.pc := not_not.mp fun hnot => hs (.inl hnot)
  cases hi : program.instructionAt? s.pc with
  | none =>
    rw [successors_of_halted (Array.getElem?_eq_none_iff.mp hi) hpc] at h
    cases h
  | some i =>
    rw [successors_of_instruction hi] at h
    cases i with
    | moveLeft | increment | decrement | write | read => cases h
    | moveRight =>
      obtain ⟨right, hright⟩ := exists_rightPointer hs hi
      rw [perform, hright] at h
      cases h
    | jumpIfZero | jumpIfNonZero =>
      simp only [perform, branch] at h
      split at h
      · cases ht : program.jumpTarget? s.pc <;> rw [ht] at h <;> cases h
      · cases h

/-- A state has at most 256 successors. -/
theorem length_successors_le {next : List State} (h : program.successors io s = .ok next) :
    next.length ≤ 256 := by
  cases hi : program.instructionAt? s.pc with
  | none =>
    rw [eq_nil_of_halted hi h]
    exact Nat.zero_le _
  | some i =>
    rw [successors_of_instruction hi] at h
    cases i with
    | moveLeft | increment | decrement | write =>
      cases h
      simp
    | moveRight =>
      obtain ⟨_, _, rfl⟩ := right_cases h
      simp
    | read =>
      cases h
      rw [List.length_map]
      cases io.possibleReads s.readsLeft <;> simp [PossibleReads.toList]
    | jumpIfZero | jumpIfNonZero =>
      rcases branch_cases h with ⟨_, rfl⟩ | ⟨_, _, _, rfl⟩ <;> simp

/-- What the reachable states of a program have in common. -/
structure Confined (program : Program) (io : InputModel) (s : State) : Prop where
  /-- Digest and fingerprint agree with the configuration. -/
  canonical : s.Canonical
  /-- The position is within the program or at its end, or a jump leads to it. -/
  pc : s.pc ≤ program.size ∨ ∃ p, program.jumpTarget? p = some s.pc
  /-- The pointer is on the tape. -/
  pointer : s.pointer < defaultTapeLength
  /-- No cell is set beyond the tape. -/
  cells : ∀ p, defaultTapeLength ≤ p → s.cell p = 0
  /-- The budget is the initial one less some number of reads. -/
  reads : ∃ k, s.readsLeft = io.maxReads.map (· - k)

/-- The pointer goes around on the tape to the left. -/
theorem leftPointer_lt (h : s.pointer < defaultTapeLength) : s.leftPointer < defaultTapeLength := by
  unfold State.leftPointer
  split <;> omega

/-- The pointer goes around on the tape to the right. -/
theorem rightPointer_lt {right : Nat} (h : s.rightPointer = .ok right) :
    right < defaultTapeLength := by
  rw [(State.rightPointer_eq_ok.mp h).2]
  split
  · decide
  · omega

/-- The position behind an instruction is at most the end of the program. -/
theorem next_le_size {i : Instruction} (hi : program.instructionAt? s.pc = some i) :
    s.pc + 1 ≤ program.size :=
  (Array.getElem?_eq_some_iff.mp hi).1

/-- A store to the current cell stays on the tape. -/
theorem Confined.cells_store (h : Confined program io s) (pc : Nat) (value : UInt8)
    (readsLeft : Option Nat) (p : Nat) (hp : defaultTapeLength ≤ p) :
    (s.store pc value readsLeft).cell p = 0 := by
  have hne : p ≠ s.pointer := by
    have hlt := h.pointer
    omega
  rw [State.cell_store, if_neg hne, h.cells p hp]

/-- Every transition leads from confined states to confined states. -/
theorem Confined.transition (h : Confined program io s) (ht : Transition program io s t) :
    Confined program io t := by
  cases ht with
  | left hi =>
    exact ⟨h.canonical.move _ _, .inl (next_le_size hi), leftPointer_lt h.pointer, h.cells, h.reads⟩
  | right hi hright =>
    exact ⟨h.canonical.move _ _, .inl (next_le_size hi), rightPointer_lt hright, h.cells, h.reads⟩
  | increment hi | decrement hi =>
    exact ⟨h.canonical.store _ _ _, .inl (next_le_size hi), h.pointer, h.cells_store _ _ _, h.reads⟩
  | read hi byte _ =>
    refine ⟨h.canonical.store _ _ _, .inl (next_le_size hi), h.pointer, h.cells_store _ _ _, ?_⟩
    obtain ⟨k, hk⟩ := h.reads
    refine ⟨k + 1, ?_⟩
    change s.readsLeft.map (· - 1) = io.maxReads.map (· - (k + 1))
    rw [hk, Option.map_map]
    rfl
  | write hi =>
    exact ⟨h.canonical.jump _, .inl (next_le_size hi), h.pointer, h.cells, h.reads⟩
  | pass hi _ =>
    exact ⟨h.canonical.jump _, .inl (next_le_size hi), h.pointer, h.cells, h.reads⟩
  | jump _ _ ht =>
    exact ⟨h.canonical.jump _, .inr ⟨s.pc, ht⟩, h.pointer, h.cells, h.reads⟩

/-- The initial state is confined. -/
theorem confined_initial (program : Program) (io : InputModel) :
    Confined program io (.initial io.maxReads) where
  canonical := State.canonical_initial _
  pc := .inl (Nat.zero_le _)
  pointer := Nat.zero_lt_succ _
  cells p _ := by simp [State.cell, State.initial, State.ofParts]
  reads := ⟨0, by cases io.maxReads <;> rfl⟩

/-- Every reachable state of a program is confined. -/
theorem confined_of_reachable (h : (program.stateSpace io).Reachable s) : Confined program io s :=
  h.invariant (confined_initial program io) fun _ _ hs hst =>
    hs.transition (transition_of_leads hst)

/-- Behind the target of every jump some position follows. -/
def InRange (program : Program) : Prop :=
  ∀ p target, program.jumpTarget? p = some target → program.HasNext target

/-- A reachable state needs no word that does not exist, if some position follows its own. -/
theorem not_overflows (hs : (program.stateSpace io).Reachable s) (hpc : program.HasNext s.pc) :
    ¬ program.Overflows s := by
  rintro (hnot | ⟨_, hpointer⟩)
  · exact hnot hpc
  · have hlt : s.pointer < defaultTapeLength := (confined_of_reachable hs).pointer
    have hwords : defaultTapeLength < UInt64.size := by decide
    omega

/-- No reachable state needs a word that does not exist, if some position follows the target of
every jump. -/
theorem InRange.not_overflows (hrange : program.InRange)
    (hs : (program.stateSpace io).Reachable s) : ¬ program.Overflows s := by
  refine Program.not_overflows hs ?_
  rcases (confined_of_reachable hs).pc with hle | ⟨p, hp⟩
  · exact .inl hle
  · exact hrange p s.pc hp

/-- The successors of the reachable states of an accepted program are known, if some position
follows the target of every jump. -/
theorem exists_successors (h : program.validate = .ok ()) (hrange : program.InRange)
    (hs : (program.stateSpace io).Reachable s) :
    ∃ next, (program.stateSpace io).successors s = .ok next :=
  successors_ok h (hrange.not_overflows hs) io

end Program

end TapeReach
