import TapeReach.Proofs.Program.RoundTrip

/-!
# Reading texts one after the other

The last piece of a text and the first piece of the text behind it become one.
Outside labels both hold code, so every other piece keeps its kind, and all
that the second text says moves by the number of instructions of the first. No
bracket of balanced code is closed behind it, so the two jump tables do not
mix. A text that joins two programs is therefore read as the one followed by
the other.
-/

namespace TapeReach

namespace Brackets

variable {a b code : List Instruction} {p q q' : Nat}

/-- An opening bracket has one partner. -/
theorem Pairs.close_unique (h : Pairs code p q) (h' : Pairs code p q') : q = q' := by
  obtain ⟨before, body, after, hbody, hcode, hp, rfl⟩ := h
  obtain ⟨before', body', after', hbody', hcode', hp', rfl⟩ := h'
  have hlength : before.length = before'.length := hp.symm.trans hp'
  obtain ⟨_, hrest⟩ := List.append_inj (hcode.symm.trans hcode') hlength
  rw [List.cons_inj_right] at hrest
  rw [hlength, hbody.eq_of_append_close hbody' hrest]

/-- The pairs of balanced code and of what follows it are those of the two parts. -/
theorem Balanced.pairs_append_iff (ha : Balanced a) :
    Pairs (a ++ b) p q ↔ Pairs a p q ∨
      ∃ p' q', p = a.length + p' ∧ q = a.length + q' ∧ Pairs b p' q' := by
  constructor
  · rintro ⟨before, body, after, hbody, hcode, rfl, rfl⟩
    rcases List.append_eq_append_iff.mp hcode with ⟨more, rfl, hb⟩ | ⟨more, hmore, hb⟩
    · refine .inr ⟨more.length, more.length + 1 + body.length, List.length_append, ?_,
        more, body, after, hbody, hb, rfl, rfl⟩
      rw [List.length_append]
      omega
    · cases more with
      | nil =>
        rw [List.append_nil] at hmore
        subst hmore
        refine .inr ⟨0, 1 + body.length, rfl, Nat.add_assoc _ _ _,
          [], body, after, hbody, hb.symm, rfl, ?_⟩
        rw [List.length_nil, Nat.zero_add]
      | cons i more =>
        -- The bracket opens within `a`, where it has its partner.
        rw [List.cons_append, List.cons.injEq] at hb
        obtain ⟨rfl, _⟩ := hb
        have hopening : a[before.length]? = some .jumpIfZero := by simp [hmore]
        obtain ⟨q, hpair | hpair⟩ := ha.exists_partner hopening rfl
        · have hwhole : Pairs (a ++ b) before.length (before.length + 1 + body.length) :=
            ⟨before, body, after, hbody, hcode, rfl, rfl⟩
          rw [hwhole.close_unique (hpair.append b)]
          exact .inl hpair
        · rw [hpair.closes] at hopening
          cases hopening
  · rintro (h | ⟨p', q', rfl, rfl, h⟩)
    · exact h.append b
    · have haround := h.around a []
      rwa [List.append_nil] at haround

/-- The partners in balanced code and in what follows it are those of the two parts. -/
theorem Balanced.partners_append_iff (ha : Balanced a) :
    Partners (a ++ b) p q ↔ Partners a p q ∨
      ∃ p' q', p = a.length + p' ∧ q = a.length + q' ∧ Partners b p' q' := by
  simp only [Partners, ha.pairs_append_iff]
  constructor
  · rintro ((h | ⟨p', q', hp, hq, h⟩) | h | ⟨q', p', hq, hp, h⟩)
    · exact .inl (.inl h)
    · exact .inr ⟨p', q', hp, hq, .inl h⟩
    · exact .inl (.inr h)
    · exact .inr ⟨p', q', hp, hq, .inr h⟩
  · rintro ((h | h) | ⟨p', q', hp, hq, h | h⟩)
    · exact .inl (.inl h)
    · exact .inr (.inl h)
    · exact .inl (.inr ⟨p', q', hp, hq, h⟩)
    · exact .inr (.inr ⟨q', p', hq, hp, h⟩)

/-- A jump table of balanced code and what follows it has the jumps of the two parts, those
of the second moved behind the first. -/
theorem IsJumpTable.append_iff {jumps jumpsA jumpsB : Std.ExtTreeMap Nat Nat}
    (h : IsJumpTable (a ++ b) jumps) (ha : Balanced a) (hjumpsA : IsJumpTable a jumpsA)
    (hjumpsB : IsJumpTable b jumpsB) (p target : Nat) :
    jumps[p]? = some target ↔ jumpsA[p]? = some target ∨
      ∃ p' target' : Nat, p = a.length + p' ∧ target = a.length + target' ∧
        jumpsB[p']? = some target' := by
  rw [h p target, hjumpsA p target]
  constructor
  · rintro ⟨q, rfl, hpartners⟩
    rcases ha.partners_append_iff.mp hpartners with hin | ⟨p', q', hp, rfl, hin⟩
    · exact .inl ⟨q, rfl, hin⟩
    · exact .inr ⟨p', q' + 1, hp, Nat.add_assoc _ _ _, (hjumpsB p' _).mpr ⟨q', rfl, hin⟩⟩
  · rintro (⟨q, rfl, hin⟩ | ⟨p', target', hp, rfl, hjump⟩)
    · exact ⟨q, rfl, ha.partners_append_iff.mpr (.inl hin)⟩
    · obtain ⟨q', rfl, hin⟩ := (hjumpsB p' target').mp hjump
      exact ⟨a.length + q', (Nat.add_assoc _ _ _).symm,
        ha.partners_append_iff.mpr (.inr ⟨p', q', hp, rfl, hin⟩)⟩

end Brackets

namespace Source

open Brackets

variable {a b : List Char}

section Pieces

/-- Where two texts meet, the last piece of one and the first of the other become one. -/
theorem exists_pieces_append (a b : List Char) :
    ∃ closed last first rest, pieces a = closed ++ [last] ∧ pieces b = first :: rest ∧
      pieces (a ++ b) = closed ++ (last ++ first) :: rest := by
  induction a with
  | nil =>
    obtain ⟨first, rest, hb⟩ := List.exists_cons_of_ne_nil (List.splitOn_ne_nil labelMark b)
    exact ⟨[], [], first, rest, List.splitOn_nil _, hb, hb⟩
  | cons c a ih =>
    obtain ⟨closed, last, first, rest, ha, hb, hjoined⟩ := ih
    simp only [pieces] at ha hjoined ⊢
    rw [List.cons_append, List.splitOn_cons_eq_if_modifyHead, List.splitOn_cons_eq_if_modifyHead,
      ha, hjoined]
    split
    · exact ⟨[] :: closed, last, first, rest, rfl, hb, rfl⟩
    · cases closed with
      | nil => exact ⟨[], c :: last, first, rest, rfl, hb, rfl⟩
      | cons head closed => exact ⟨(c :: head) :: closed, last, first, rest, rfl, hb, rfl⟩

variable {closed : List (List Char)} {last first : List Char}

/-- If an even number of pieces precedes the place where two texts meet, then the code of
both follows each other. -/
theorem code_joined (heven : closed.length % 2 = 0) (rest : List (List Char)) :
    code (closed ++ (last ++ first) :: rest) =
      code (closed ++ [last]) ++ code (first :: rest) := by
  induction rest using List.reverseRecOn with
  | nil =>
    have hfirst : code [first] = first.filterMap Instruction.ofSymbol? :=
      (code_concat [] first).trans (List.nil_append _)
    rw [code_concat, code_concat, if_pos heven, if_pos heven, hfirst, List.filterMap_append,
      List.append_assoc]
  | append_singleton rest piece ih =>
    have hparity : (closed ++ (last ++ first) :: rest).length % 2 = (first :: rest).length % 2 := by
      rw [List.length_append, List.length_cons, List.length_cons]
      omega
    rw [← List.cons_append, ← List.cons_append, ← List.append_assoc,
      code_concat (closed ++ (last ++ first) :: rest), code_concat (first :: rest), ih, hparity,
      List.append_assoc]

/-- If an even number of pieces precedes the place where two texts meet, then the names of
the second move by the number of instructions of the first. -/
theorem names_joined (heven : closed.length % 2 = 0) (rest : List (List Char)) (pc : Nat) :
    names (closed ++ (last ++ first) :: rest) pc =
      names (closed ++ [last]) pc ++
        if (code (closed ++ [last])).length ≤ pc then
          names (first :: rest) (pc - (code (closed ++ [last])).length)
        else [] := by
  induction rest using List.reverseRecOn with
  | nil =>
    have hfirst : ∀ n, names [first] n = [] := fun n => (names_concat [] first n).trans rfl
    have hodd : ∀ n, ¬ (closed.length % 2 = 1 ∧ (code closed).length = n) := by omega
    rw [names_concat, names_concat, if_neg (hodd pc), if_neg (hodd pc), hfirst, ite_self,
      List.append_nil, List.append_nil]
  | append_singleton rest piece ih =>
    have hparity : (closed ++ (last ++ first) :: rest).length % 2 = (first :: rest).length % 2 := by
      rw [List.length_append, List.length_cons, List.length_cons]
      omega
    rw [← List.cons_append, ← List.cons_append, ← List.append_assoc,
      names_concat (closed ++ (last ++ first) :: rest), names_concat (first :: rest), ih, hparity,
      code_joined heven, List.length_append, List.append_assoc]
    congr 1
    by_cases hle : (code (closed ++ [last])).length ≤ pc
    · have hplace : ∀ n, (code (closed ++ [last])).length + n = pc ↔
          n = pc - (code (closed ++ [last])).length := by omega
      simp only [if_pos hle, hplace]
    · have hplace : ∀ n, (code (closed ++ [last])).length + n ≠ pc := by omega
      simp only [if_neg hle, hplace, and_false, if_false, List.append_nil]

end Pieces

/-- A text outside labels has an even number of pieces before the place where it meets the
next one. -/
theorem exists_pieces_joined (ha : a.count labelMark % 2 = 0) (b : List Char) :
    ∃ closed last first rest, closed.length % 2 = 0 ∧ pieces a = closed ++ [last] ∧
      pieces b = first :: rest ∧ pieces (a ++ b) = closed ++ (last ++ first) :: rest := by
  obtain ⟨closed, last, first, rest, hpiecesA, hpiecesB, hjoined⟩ := exists_pieces_append a b
  have hlength := length_closedPieces a
  rw [closedPieces, hpiecesA, List.dropLast_concat] at hlength
  exact ⟨closed, last, first, rest, by omega, hpiecesA, hpiecesB, hjoined⟩

/-- Behind a text outside labels the code of the next one follows. -/
theorem code_pieces_append (ha : a.count labelMark % 2 = 0) (b : List Char) :
    code (pieces (a ++ b)) = code (pieces a) ++ code (pieces b) := by
  obtain ⟨closed, last, first, rest, heven, hpiecesA, hpiecesB, hjoined⟩ :=
    exists_pieces_joined ha b
  rw [hpiecesA, hpiecesB, hjoined]
  exact code_joined heven rest

/-- Behind a text outside labels the names of the next one move by the number of its
instructions. -/
theorem names_pieces_append (ha : a.count labelMark % 2 = 0) (b : List Char) (pc : Nat) :
    names (pieces (a ++ b)) pc =
      names (pieces a) pc ++
        if (code (pieces a)).length ≤ pc then
          names (pieces b) (pc - (code (pieces a)).length)
        else [] := by
  obtain ⟨closed, last, first, rest, heven, hpiecesA, hpiecesB, hjoined⟩ :=
    exists_pieces_joined ha b
  rw [hpiecesA, hpiecesB, hjoined]
  exact names_joined heven rest pc

/-- Two texts in the grammar are in the grammar one after the other. -/
theorem InGrammar.append (ha : InGrammar a) (hb : InGrammar b) : InGrammar (a ++ b) where
  marks := by
    have hmarksA := ha.marks
    have hmarksB := hb.marks
    rw [List.count_append]
    omega
  labels k hk := by
    obtain ⟨closed, last, first, rest, heven, hpiecesA, hpiecesB, hjoined⟩ :=
      exists_pieces_joined ha.marks b
    rw [hjoined]
    rcases Nat.lt_trichotomy k closed.length with hlt | rfl | hgt
    · have hlabel := ha.labels k hk
      rw [hpiecesA, List.getElem?_append_left hlt] at hlabel
      rw [List.getElem?_append_left hlt]
      exact hlabel
    · omega
    · -- Behind the place where the texts meet stand the pieces of the second one.
      obtain ⟨m, rfl⟩ : ∃ m, k = closed.length + (m + 1) := ⟨k - closed.length - 1, by omega⟩
      have hlabel := hb.labels (m + 1) (by omega)
      rw [hpiecesB, List.getElem?_cons_succ] at hlabel
      rw [List.getElem?_append_right (by omega), Nat.add_sub_cancel_left, List.getElem?_cons_succ]
      exact hlabel
  brackets := by
    rw [code_pieces_append ha.marks]
    exact ha.brackets.append hb.brackets

/-- A text in the grammar is read as a program that has its tables. -/
theorem InGrammar.exists_program {text : List Char} (h : InGrammar text) :
    ∃ program, Program.ofChars text = .ok program ∧ IsProgramOf text program := by
  rcases ofChars_cases text with ⟨program, hprogram, _, htables⟩ | ⟨err, _, hrefused⟩
  · exact ⟨program, hprogram, htables⟩
  · exact (h.not_refused hrefused).elim

end Source

namespace Program

open Source Brackets

/-- The third program is the first one followed by the second one. -/
structure IsConcatenation (first second whole : Program) : Prop where
  /-- The instructions follow each other. -/
  instructions : whole.instructions = first.instructions ++ second.instructions
  /-- The jumps are those of both programs, those of the second with all positions moved
  behind the first. -/
  jumps : ∀ p target, whole.jumpTarget? p = some target ↔
    first.jumpTarget? p = some target ∨
      ∃ p' target', p = first.size + p' ∧ target = first.size + target' ∧
        second.jumpTarget? p' = some target'
  /-- Before the end of the first program its labels are found. -/
  labelsBefore : ∀ pc < first.size, whole.labelsAt pc = first.labelsAt pc
  /-- Where the programs meet, the labels at the end of the first precede those at the start
  of the second. -/
  labelsBetween : whole.labelsAt first.size = first.labelsAt first.size ++ second.labelsAt 0
  /-- Behind it the labels of the second program are found. -/
  labelsBehind : ∀ pc, first.size < pc → whole.labelsAt pc = second.labelsAt (pc - first.size)

/-- A program that was read from a text has no labels behind its end. -/
theorem labelsAt_of_size_lt {program : Program} {pc : Nat} (h : program.WellFormed)
    (hpc : program.size < pc) : program.labelsAt pc = [] := by
  cases hfound : program.labels[pc]? with
  | none => rw [labelsAt, hfound, Option.getD_none]
  | some found => exact absurd (h.position pc found hfound) (Nat.not_le.mpr hpc)

/-- Two texts that are read as programs are read, one after the other, as the first program
followed by the second. -/
theorem parse_append {a b : String} {first second : Program} (ha : parse a = .ok first)
    (hb : parse b = .ok second) :
    ∃ whole, parse (a ++ b) = .ok whole ∧ IsConcatenation first second whole := by
  obtain ⟨hgrammarA, htablesA⟩ := ofChars_eq_ok_iff.mp ha
  obtain ⟨hgrammarB, htablesB⟩ := ofChars_eq_ok_iff.mp hb
  obtain ⟨whole, hwhole, htables⟩ := (hgrammarA.append hgrammarB).exists_program
  have hsize : (code (pieces a.toList)).length = first.size := by
    rw [← htablesA.instructions, Array.length_toList, size]
  have hlabels : ∀ pc, whole.labelsAt pc = first.labelsAt pc ++
      if first.size ≤ pc then second.labelsAt (pc - first.size) else [] := by
    intro pc
    rw [htables.labelsAt_eq, names_pieces_append hgrammarA.marks, hsize, htablesA.labelsAt_eq,
      htablesB.labelsAt_eq]
  have hparse : parse (a ++ b) = .ok whole := by
    rw [parse, String.toList_append]
    exact hwhole
  refine ⟨whole, hparse, ?_⟩
  constructor
  case instructions =>
    apply Array.toList_inj.mp
    rw [Array.toList_append, htables.instructions, code_pieces_append hgrammarA.marks,
      htablesA.instructions, htablesB.instructions]
  case jumps =>
    have hjumps := htables.jumps
    rw [code_pieces_append hgrammarA.marks] at hjumps
    intro p target
    rw [← hsize]
    exact hjumps.append_iff hgrammarA.brackets htablesA.jumps htablesB.jumps p target
  case labelsBefore =>
    intro pc hpc
    rw [hlabels, if_neg (Nat.not_le.mpr hpc), List.append_nil]
  case labelsBetween => rw [hlabels, if_pos (Nat.le_refl _), Nat.sub_self]
  case labelsBehind =>
    intro pc hpc
    rw [hlabels, if_pos (Nat.le_of_lt hpc), labelsAt_of_size_lt (htablesA.wellFormed hgrammarA) hpc,
      List.nil_append]

/-- A loop with a label in it and one behind it. -/
def clearing : Program :=
  .ofTables [.jumpIfZero, .decrement, .jumpIfNonZero] [(0, 3), (2, 1)]
    [(1, ["count"]), (3, ["clear"])]

/-- A loop with a label in front of it. -/
def seeking : Program :=
  .ofTables [.jumpIfZero, .moveRight, .jumpIfNonZero] [(0, 3), (2, 1)] [(0, ["seek"])]

/-- Both loops, with two labels between them. -/
def clearingSeeking : Program :=
  .ofTables [.jumpIfZero, .decrement, .jumpIfNonZero, .jumpIfZero, .moveRight, .jumpIfNonZero]
    [(0, 3), (2, 1), (3, 6), (5, 4)] [(1, ["count"]), (3, ["clear", "seek"])]

/-- Two loops one after the other keep their jumps, and the labels between them come
together. -/
theorem clearingSeeking_isConcatenation :
    parse "[_count_-]_clear_ " = .ok clearing ∧ parse "then _seek_[>]" = .ok seeking ∧
      parse ("[_count_-]_clear_ " ++ "then _seek_[>]") = .ok clearingSeeking ∧
      IsConcatenation clearing seeking clearingSeeking := by
  have hclearing : parse "[_count_-]_clear_ " = .ok clearing := by rfl
  have hseeking : parse "then _seek_[>]" = .ok seeking := by rfl
  have hboth : parse ("[_count_-]_clear_ " ++ "then _seek_[>]") = .ok clearingSeeking := by rfl
  obtain ⟨whole, hwhole, hconcatenation⟩ := parse_append hclearing hseeking
  rw [hboth] at hwhole
  cases hwhole
  exact ⟨hclearing, hseeking, hboth, hconcatenation⟩

end Program

end TapeReach
