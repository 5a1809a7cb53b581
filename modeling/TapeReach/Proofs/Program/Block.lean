import TapeReach.Proofs.Program.RoundTrip

/-!
# The tree of a program

The loops of a program form a tree: a block is a row of instructions and
loops, and a loop has a block of its own. Balanced code is the code of exactly
one block. Where the code of a block stands in a well-formed program, each of
its loops has its two brackets, and these jump behind each other.
-/

namespace TapeReach

open Brackets

/-- A row of instructions and loops. -/
inductive Block where
  /-- Nothing is left. -/
  | nil
  /-- An instruction other than a bracket, and what follows it. -/
  | plain (i : Instruction) (hi : i.isJump = false) (rest : Block)
  /-- A loop, and what follows it. -/
  | loop (body rest : Block)

/-- The brackets at `p` and `q` are a loop of the program and jump behind each other. -/
structure Program.HasLoop (program : Program) (p q : Nat) : Prop where
  /-- The loop opens at `p`. -/
  opening : program.instructionAt? p = some .jumpIfZero
  /-- The loop closes at `q`. -/
  closing : program.instructionAt? q = some .jumpIfNonZero
  /-- The opening bracket jumps behind the loop. -/
  leave : program.jumpTarget? p = some (q + 1)
  /-- The closing bracket jumps to the start of the body. -/
  again : program.jumpTarget? q = some (p + 1)

/-- The brackets of a pair are a loop of a well-formed program. -/
theorem Program.WellFormed.hasLoop {program : Program} (h : program.WellFormed) {p q : Nat}
    (hpairs : Pairs program.instructions.toList p q) : program.HasLoop p q where
  opening := Array.getElem?_toList.symm.trans hpairs.opens
  closing := Array.getElem?_toList.symm.trans hpairs.closes
  leave := (h.jumps p _).mpr ⟨q, rfl, .inl hpairs⟩
  again := (h.jumps q _).mpr ⟨p, rfl, .inr hpairs⟩

namespace Block

/-- The instructions of a block in order, with the brackets of its loops. -/
def code : Block → List Instruction
  | nil => []
  | plain i _ rest => i :: rest.code
  | loop body rest => .jumpIfZero :: (body.code ++ .jumpIfNonZero :: rest.code)

/-- An instruction is one position long. -/
theorem length_code_plain (i : Instruction) (hi : i.isJump = false) (rest : Block) :
    (plain i hi rest).code.length = rest.code.length + 1 :=
  List.length_cons

/-- A loop is two positions longer than its body. -/
theorem length_code_loop (body rest : Block) :
    (loop body rest).code.length = body.code.length + 2 + rest.code.length := by
  rw [code, List.length_cons, List.length_append, List.length_cons]
  omega

/-- The code of a block is balanced. -/
theorem balanced (block : Block) : Balanced block.code := by
  induction block with
  | nil => exact .nil
  | plain i hi rest ih => exact .plain hi ih
  | loop body rest ihbody ihrest => exact .loop ihbody ihrest

/-- Balanced code is the code of a block. -/
theorem exists_code_eq {code : List Instruction} (h : Balanced code) :
    ∃ block : Block, block.code = code := by
  induction h with
  | nil => exact ⟨nil, rfl⟩
  | @plain i _ hi _ ih =>
    obtain ⟨rest, rfl⟩ := ih
    exact ⟨plain i hi rest, rfl⟩
  | loop _ _ ihbody ihrest =>
    obtain ⟨body, rfl⟩ := ihbody
    obtain ⟨rest, rfl⟩ := ihrest
    exact ⟨loop body rest, rfl⟩

/-- Code is the code of at most one block. -/
theorem code_injective : Function.Injective code := by
  intro block
  induction block with
  | nil =>
    intro other h
    cases other with
    | nil => rfl
    | plain | loop => cases h
  | plain i hi rest ih =>
    intro other h
    cases other with
    | nil => cases h
    | plain j hj others =>
      obtain ⟨rfl, hrest⟩ := List.cons.inj h
      rw [ih hrest]
    | loop =>
      obtain ⟨rfl, _⟩ := List.cons.inj h
      cases hi
  | loop body rest ihbody ihrest =>
    intro other h
    cases other with
    | nil => cases h
    | plain j hj others =>
      obtain ⟨rfl, _⟩ := List.cons.inj h
      cases hj
    | loop body' rest' =>
      have htail := (List.cons.inj h).2
      have hbody := body.balanced.eq_of_append_close body'.balanced htail
      rw [hbody] at htail
      rw [ihbody hbody, ihrest (List.cons.inj (List.append_cancel_left htail)).2]

/-- The code of the block stands in the program from this position on. -/
def StandsAt (block : Block) (program : Program) (p : Nat) : Prop :=
  ∃ before after, program.instructions.toList = before ++ (block.code ++ after) ∧
    p = before.length

variable {program : Program} {p : Nat} {body rest : Block}

/-- An instruction of a block stands in the program, and so does what follows it. -/
theorem StandsAt.plain {i : Instruction} {hi : i.isJump = false}
    (h : (Block.plain i hi rest).StandsAt program p) :
    program.instructionAt? p = some i ∧ rest.StandsAt program (p + 1) := by
  obtain ⟨before, after, hcode, rfl⟩ := h
  rw [code, List.cons_append] at hcode
  refine ⟨?_, before ++ [i], after, ?_, ?_⟩
  · rw [Program.instructionAt?, ← Array.getElem?_toList, hcode,
      List.getElem?_append_right (Nat.le_refl _), Nat.sub_self, List.getElem?_cons_zero]
  · rw [hcode, List.append_assoc, List.singleton_append]
  · rw [List.length_append, List.length_singleton]

/-- The brackets of a loop are a pair of the program, and its body stands between them. -/
theorem StandsAt.loop (h : (Block.loop body rest).StandsAt program p) :
    ∃ q, q = p + 1 + body.code.length ∧ Pairs program.instructions.toList p q ∧
      body.StandsAt program (p + 1) ∧ rest.StandsAt program (q + 1) := by
  obtain ⟨before, after, hcode, rfl⟩ := h
  simp only [code, List.cons_append, List.append_assoc] at hcode
  refine ⟨_, rfl, ⟨before, body.code, rest.code ++ after, body.balanced, hcode, rfl, rfl⟩,
    ⟨before ++ [.jumpIfZero], .jumpIfNonZero :: (rest.code ++ after), ?_, ?_⟩,
    before ++ .jumpIfZero :: (body.code ++ [.jumpIfNonZero]), after, ?_, ?_⟩
  · rw [hcode, List.append_assoc, List.singleton_append]
  · rw [List.length_append, List.length_singleton]
  · simp only [hcode, List.append_assoc, List.cons_append, List.nil_append]
  · simp only [List.length_append, List.length_cons, List.length_nil]
    omega

end Block

end TapeReach
