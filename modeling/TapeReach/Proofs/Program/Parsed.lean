import TapeReach.Program.Source
import TapeReach.Proofs.State.Transition

/-!
# Programs that were read from a text

Reading one character does one of seven things to a scanner, or fails in one
of two ways; they are listed here, and no other place opens the step. While a
text is read, every bracket is open or has its jump target, and no target lies
behind the instructions read so far. So a program that was read from a text is
accepted by every check, and all its runs stay within it.
-/

namespace TapeReach

namespace Scanner

/-- What reading a character can lead to. -/
inductive Reads (s : Scanner) (c : Char) : Scanner → Prop
  /-- Inside a label the character belongs to the name. -/
  | name {start : Nat} {chars : List Char} (hl : s.openLabel = some (start, chars))
      (hc : c ≠ labelMark) :
      Reads s c { s with offset := s.offset + c.utf8Size, openLabel := some (start, c :: chars) }
  /-- The label is closed. -/
  | attach {start : Nat} {chars : List Char} (hl : s.openLabel = some (start, chars))
      (hc : c = labelMark) (hne : chars ≠ []) :
      Reads s c
        { s.attach (String.ofList chars.reverse) with
          offset := s.offset + c.utf8Size, openLabel := none }
  /-- A label is opened. -/
  | label (hl : s.openLabel = none) (hc : c = labelMark) :
      Reads s c { s with offset := s.offset + c.utf8Size, openLabel := some (s.offset, []) }
  /-- The character is a comment. -/
  | comment (hl : s.openLabel = none) (hc : c ≠ labelMark)
      (hi : Instruction.ofSymbol? c = none) :
      Reads s c { s with offset := s.offset + c.utf8Size }
  /-- The character stands for an instruction other than a bracket. -/
  | plain {i : Instruction} (hl : s.openLabel = none) (hi : Instruction.ofSymbol? c = some i)
      (hj : i.isJump = false) :
      Reads s c { s.push i with offset := s.offset + c.utf8Size }
  /-- A bracket is opened. -/
  | opening (hl : s.openLabel = none) (hi : Instruction.ofSymbol? c = some .jumpIfZero) :
      Reads s c
        { s.push .jumpIfZero with
          offset := s.offset + c.utf8Size
          openBrackets := (s.instructions.size, s.offset) :: s.openBrackets }
  /-- The innermost open bracket is closed. -/
  | closing {start offset : Nat} {outer : List (Nat × Nat)} (hl : s.openLabel = none)
      (hi : Instruction.ofSymbol? c = some .jumpIfNonZero)
      (ho : s.openBrackets = (start, offset) :: outer) :
      Reads s c
        { s.push .jumpIfNonZero with
          offset := s.offset + c.utf8Size
          jumps := (s.jumps.insert start (s.instructions.size + 1)).insert s.instructions.size
            (start + 1)
          openBrackets := outer }

variable {s s' : Scanner} {c : Char}

/-- A character that is accepted does one of the seven things. -/
theorem reads_of_step (h : s.step c = .ok s') : Reads s c s' := by
  unfold step at h
  cases ha : s.accept c with
  | error err => simp only [ha, Except.map, reduceCtorEq] at h
  | ok read =>
    simp only [ha, Except.map, Except.ok.injEq] at h
    subst h
    unfold accept at ha
    cases hl : s.openLabel with
    | some label =>
      obtain ⟨start, chars⟩ := label
      simp only [hl] at ha
      split at ha
      · rename_i hc
        split at ha
        · cases ha
        · rename_i hne
          cases ha
          exact .attach hl hc (by simpa only [List.isEmpty_iff] using hne)
      · rename_i hc
        cases ha
        exact .name hl hc
    | none =>
      simp only [hl] at ha
      split at ha
      · rename_i hc
        cases ha
        exact .label hl hc
      · rename_i hc
        cases hi : Instruction.ofSymbol? c with
        | none =>
          simp only [hi] at ha
          cases ha
          exact .comment hl hc hi
        | some i =>
          simp only [hi] at ha
          cases i with
          | moveLeft | moveRight | increment | decrement | read | write =>
            cases ha
            exact .plain hl hi rfl
          | jumpIfZero =>
            cases ha
            exact .opening hl hi
          | jumpIfNonZero =>
            cases ho : s.openBrackets with
            | nil => simp only [append, closeBracket, ho, Except.map, reduceCtorEq] at ha
            | cons entry outer =>
              simp only [append, closeBracket, ho, Except.map, Except.ok.injEq] at ha
              subst ha
              exact .closing hl hi ho

/-- A character is refused if it closes a label without a name or a bracket that is not
open. -/
theorem error_of_step {err : SyntaxError} (h : s.step c = .error err) :
    (∃ start, s.openLabel = some (start, []) ∧ c = labelMark ∧ err = .emptyLabel start) ∨
      (s.openLabel = none ∧ Instruction.ofSymbol? c = some .jumpIfNonZero ∧
        s.openBrackets = [] ∧ err = .unmatchedClose s.offset) := by
  unfold step at h
  cases ha : s.accept c with
  | ok read => simp only [ha, Except.map, reduceCtorEq] at h
  | error found =>
    simp only [ha, Except.map, Except.error.injEq] at h
    subst h
    unfold accept at ha
    cases hl : s.openLabel with
    | some label =>
      obtain ⟨start, chars⟩ := label
      simp only [hl] at ha
      split at ha
      · rename_i hc
        split at ha
        · rename_i hempty
          cases ha
          rw [List.isEmpty_iff] at hempty
          exact .inl ⟨start, by rw [hempty], hc, rfl⟩
        · cases ha
      · cases ha
    | none =>
      simp only [hl] at ha
      split at ha
      · cases ha
      · cases hi : Instruction.ofSymbol? c with
        | none =>
          simp only [hi] at ha
          cases ha
        | some i =>
          simp only [hi] at ha
          cases i with
          | moveLeft | moveRight | increment | decrement | read | write | jumpIfZero => cases ha
          | jumpIfNonZero =>
            cases ho : s.openBrackets with
            | nil =>
              simp only [append, closeBracket, ho, Except.map, Except.error.injEq] at ha
              exact .inr ⟨rfl, rfl, rfl, ha.symm⟩
            | cons entry outer =>
              simp only [append, closeBracket, ho, Except.map, reduceCtorEq] at ha

/-- What holds while a text is read. -/
structure Matched (s : Scanner) : Prop where
  /-- Open brackets are among the instructions. -/
  opened : ∀ entry ∈ s.openBrackets, entry.1 < s.instructions.size
  /-- No jump leads behind the next instruction. -/
  targets : ∀ p target : Nat, s.jumps[p]? = some target → target ≤ s.instructions.size
  /-- Every bracket is open or has its jump target. -/
  brackets : ∀ (p : Nat) (i : Instruction), s.instructions[p]? = some i → i.isJump = true →
    (∃ offset, (p, offset) ∈ s.openBrackets) ∨ ∃ target, s.jumps[p]? = some target

/-- An instruction other than a bracket leaves all brackets as they are. -/
theorem Matched.plain (h : s.Matched) {i : Instruction} (hj : i.isJump = false) (offset : Nat) :
    Matched { s.push i with offset := offset } where
  opened entry hentry := by
    have hlt := h.opened entry hentry
    simp only [push, Array.size_push]
    omega
  targets p target ht := by
    have hle := h.targets p target ht
    simp only [push, Array.size_push]
    omega
  brackets p j hp hjump := by
    simp only [push, Array.getElem?_push] at hp
    split at hp
    · cases hp
      rw [hj] at hjump
      cases hjump
    · exact h.brackets p j hp hjump

/-- A bracket that is opened is open. -/
theorem Matched.opening (h : s.Matched) (offset : Nat) :
    Matched { s.push .jumpIfZero with
      offset := offset
      openBrackets := (s.instructions.size, s.offset) :: s.openBrackets } where
  opened entry hentry := by
    simp only [push, Array.size_push]
    rcases List.mem_cons.mp hentry with rfl | hmem
    · exact Nat.lt_succ_self _
    · have hlt := h.opened entry hmem
      omega
  targets p target ht := by
    have hle := h.targets p target ht
    simp only [push, Array.size_push]
    omega
  brackets p i hp hjump := by
    simp only [push, Array.getElem?_push] at hp
    split at hp
    · rename_i heq
      exact .inl ⟨s.offset, heq ▸ List.mem_cons_self⟩
    · rcases h.brackets p i hp hjump with ⟨offset, hmem⟩ | htarget
      · exact .inl ⟨offset, List.mem_cons_of_mem _ hmem⟩
      · exact .inr htarget

/-- A bracket that is closed gives a jump target to itself and to its partner. -/
theorem Matched.closing (h : s.Matched) {start opened : Nat} {outer : List (Nat × Nat)}
    (ho : s.openBrackets = (start, opened) :: outer) (offset : Nat) :
    Matched { s.push .jumpIfNonZero with
      offset := offset
      jumps := (s.jumps.insert start (s.instructions.size + 1)).insert s.instructions.size
        (start + 1)
      openBrackets := outer } where
  opened entry hentry := by
    have hlt := h.opened entry (ho ▸ List.mem_cons_of_mem _ hentry)
    simp only [push, Array.size_push]
    omega
  targets p target ht := by
    have hstart : start < s.instructions.size := h.opened _ (ho ▸ List.mem_cons_self)
    simp only [push, Array.size_push]
    rw [Std.ExtTreeMap.getElem?_insert] at ht
    split at ht
    · cases ht
      omega
    · rw [Std.ExtTreeMap.getElem?_insert] at ht
      split at ht
      · cases ht
        exact Nat.le_refl _
      · have hle := h.targets p target ht
        omega
  brackets p i hp hjump := by
    simp only [push, Array.getElem?_push] at hp
    rw [Std.ExtTreeMap.getElem?_insert]
    split at hp
    · rename_i heq
      exact .inr ⟨start + 1, if_pos (Std.LawfulEqCmp.compare_eq_iff_eq.mpr heq.symm)⟩
    · rename_i hne
      rw [if_neg fun heq => hne (Std.LawfulEqCmp.compare_eq_iff_eq.mp heq).symm,
        Std.ExtTreeMap.getElem?_insert]
      by_cases hp' : start = p
      · exact .inr ⟨s.instructions.size + 1, if_pos (Std.LawfulEqCmp.compare_eq_iff_eq.mpr hp')⟩
      · rw [if_neg fun heq => hp' (Std.LawfulEqCmp.compare_eq_iff_eq.mp heq)]
        rcases h.brackets p i hp hjump with ⟨offset, hmem⟩ | htarget
        · rw [ho] at hmem
          rcases List.mem_cons.mp hmem with heq | houter
          · exact absurd (congrArg Prod.fst heq).symm hp'
          · exact .inl ⟨offset, houter⟩
        · exact .inr htarget

/-- Reading a character keeps the brackets matched. -/
theorem Matched.reads (h : s.Matched) (hread : Reads s c s') : s'.Matched := by
  cases hread with
  | name | attach | label | comment => exact ⟨h.opened, h.targets, h.brackets⟩
  | plain _ _ hj => exact h.plain hj _
  | opening _ _ => exact h.opening _
  | closing _ _ ho => exact h.closing ho _

/-- Reading a text keeps the brackets matched. -/
theorem Matched.readAll (h : s.Matched) {text : List Char}
    (hread : text.foldlM step s = .ok s') : s'.Matched := by
  induction text generalizing s with
  | nil =>
    cases hread
    exact h
  | cons c text ih =>
    rw [List.foldlM_cons] at hread
    cases hs : s.step c with
    | error err =>
      rw [hs] at hread
      cases hread
    | ok next =>
      rw [hs] at hread
      exact ih (h.reads (reads_of_step hs)) hread

/-- Before the first character there is no bracket. -/
theorem matched_empty : Matched {} where
  opened entry hentry := (List.not_mem_nil hentry).elim
  targets p target ht := by simp at ht
  brackets p i hi _ := by simp at hi

end Scanner

namespace Program

variable {program : Program} {text : String}

/-- A program that was read from a text is what a scanner holds in which every bracket
is closed. -/
theorem exists_scanner_of_parse (h : parse text = .ok program) :
    ∃ s : Scanner, s.Matched ∧ s.openBrackets = [] ∧ s.instructions = program.instructions ∧
      s.jumps = program.jumps := by
  unfold parse ofChars at h
  cases hs : text.toList.foldlM Scanner.step {} with
  | error err =>
    rw [hs] at h
    cases h
  | ok s =>
    rw [hs] at h
    change s.finish = .ok program at h
    unfold Scanner.finish at h
    split at h
    · cases h
    · cases h
    · rename_i hopen
      cases h
      exact ⟨s, Scanner.matched_empty.readAll hs, hopen, rfl, rfl⟩

/-- A program that was read from a text is accepted by every check. -/
theorem validate_of_parse (h : parse text = .ok program) : program.validate = .ok () := by
  obtain ⟨s, hs, hopen, hinstructions, hjumps⟩ := exists_scanner_of_parse h
  have hnone : program.firstUntargeted? = none := by
    refine List.find?_eq_none.mpr fun pc _ => ?_
    cases hi : program.instructionAt? pc with
    | none => simp only [Option.any_none, Bool.false_and, Bool.false_eq_true, not_false_eq_true]
    | some i =>
      cases hj : i.isJump with
      | false => simp only [Option.any_some, hj, Bool.false_and, Bool.false_eq_true,
          not_false_eq_true]
      | true =>
        rcases hs.brackets pc i (hinstructions ▸ hi) hj with ⟨_, hmem⟩ | ⟨target, ht⟩
        · rw [hopen] at hmem
          exact (List.not_mem_nil hmem).elim
        · have htarget : program.jumpTarget? pc = some target := by
            rw [jumpTarget?, ← hjumps]
            exact ht
          simp only [htarget, Option.isNone_some, Bool.and_false, Bool.false_eq_true,
            not_false_eq_true]
  simp only [validate, hnone]

/-- The jumps of a program that was read from a text stay within it. -/
theorem jumpTarget_le_of_parse (h : parse text = .ok program) {pc target : Nat}
    (ht : program.jumpTarget? pc = some target) : target ≤ program.size := by
  obtain ⟨s, hs, _, hinstructions, hjumps⟩ := exists_scanner_of_parse h
  have hle := hs.targets pc target (hjumps ▸ ht)
  rwa [hinstructions] at hle

/-- Some position follows the target of every jump of a program that was read from a text. -/
theorem inRange_of_parse (h : parse text = .ok program) : program.InRange :=
  fun _ _ ht => .inl (jumpTarget_le_of_parse h ht)

/-- The runs of a program that was read from a text stay within it. -/
theorem pc_le_of_parse (h : parse text = .ok program) {io : InputModel} {s : State}
    (hs : (program.stateSpace io).Reachable s) : s.pc ≤ program.size := by
  rcases (confined_of_reachable hs).pc with hle | ⟨p, hp⟩
  · exact hle
  · exact jumpTarget_le_of_parse h hp

end Program

end TapeReach
