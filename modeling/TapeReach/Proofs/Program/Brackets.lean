import Mathlib.Data.List.Induction
import Mathlib.Order.Basic
import TapeReach.Program.Basic

/-!
# Matching brackets

Brackets are balanced when every loop is closed and holds a balanced body.
Two brackets are a pair when what stands between them is balanced, and every
bracket of balanced code has its partner.

Code that was read only in part may hold brackets that are still open. The
stack of their positions, innermost first, says where the code falls apart
into balanced stretches. It has exactly the opening brackets without a partner.
-/

namespace TapeReach.Brackets

/-- Every bracket is closed by one of its own. -/
inductive Balanced : List Instruction → Prop
  | nil : Balanced []
  | plain {i : Instruction} {code : List Instruction} (hi : i.isJump = false)
      (h : Balanced code) : Balanced (i :: code)
  | loop {body rest : List Instruction} (hbody : Balanced body) (hrest : Balanced rest) :
      Balanced (.jumpIfZero :: (body ++ .jumpIfNonZero :: rest))

/-- The brackets at `p` and `q` open and close a loop. -/
def Pairs (code : List Instruction) (p q : Nat) : Prop :=
  ∃ before body after, Balanced body ∧
    code = before ++ .jumpIfZero :: (body ++ .jumpIfNonZero :: after) ∧
    p = before.length ∧ q = before.length + 1 + body.length

/-- The brackets at `p` and `q` belong together, whichever of them opens the loop. -/
def Partners (code : List Instruction) (p q : Nat) : Prop := Pairs code p q ∨ Pairs code q p

/-- Each bracket is listed with the position behind its partner, and nothing else is. -/
def IsJumpTable (code : List Instruction) (jumps : Std.ExtTreeMap Nat Nat) : Prop :=
  ∀ p target : Nat, jumps[p]? = some target ↔ ∃ q, target = q + 1 ∧ Partners code p q

/-- The brackets that are open behind the code, innermost first. -/
inductive Opens : List Instruction → List Nat → Prop
  | balanced {code : List Instruction} (h : Balanced code) : Opens code []
  | nested {before body : List Instruction} {outer : List Nat} (h : Opens before outer)
      (hbody : Balanced body) : Opens (before ++ .jumpIfZero :: body) (before.length :: outer)

/-- No beginning of the code closes more brackets than it opens. -/
def Rising (code : List Instruction) : Prop :=
  ∀ n, (code.take n).count .jumpIfNonZero ≤ (code.take n).count .jumpIfZero

section Counting

variable {code a b : List Instruction} {i : Instruction}

/-- Other instructions do not count as opening brackets. -/
theorem count_open_plain (hi : i.isJump = false) :
    (i :: code).count .jumpIfZero = code.count .jumpIfZero :=
  List.count_cons_of_ne fun heq => by simp [heq, Instruction.isJump] at hi

/-- Other instructions do not count as closing brackets. -/
theorem count_close_plain (hi : i.isJump = false) :
    (i :: code).count .jumpIfNonZero = code.count .jumpIfNonZero :=
  List.count_cons_of_ne fun heq => by simp [heq, Instruction.isJump] at hi

/-- Balanced code closes as many brackets as it opens. -/
theorem Balanced.count_eq (h : Balanced code) :
    code.count .jumpIfZero = code.count .jumpIfNonZero := by
  induction h with
  | nil => rfl
  | plain hi _ ih => rw [count_open_plain hi, count_close_plain hi, ih]
  | loop _ _ hbody hrest =>
    simp only [List.count_cons, List.count_append, beq_self_eq_true, if_true]
    simp only [beq_iff_eq, reduceCtorEq, if_false]
    omega

/-- Joining code that is rising gives code that is rising. -/
theorem Rising.append (ha : Rising a) (hb : Rising b) : Rising (a ++ b) := by
  intro n
  rw [List.take_append, List.count_append, List.count_append]
  exact Nat.add_le_add (ha n) (hb _)

/-- An opening bracket in front keeps code rising. -/
theorem Rising.opening (h : Rising code) : Rising (.jumpIfZero :: code) := by
  intro n
  cases n with
  | zero => exact Nat.le_refl _
  | succ n =>
    rw [List.take_succ_cons, List.count_cons_self, List.count_cons_of_ne (by decide)]
    exact Nat.le_succ_of_le (h n)

/-- Balanced code is rising. -/
theorem Balanced.rising (h : Balanced code) : Rising code := by
  induction h with
  | nil =>
    intro n
    rw [List.take_nil]
    exact Nat.le_refl _
  | plain hi _ ih =>
    intro n
    cases n with
    | zero => exact Nat.le_refl _
    | succ n =>
      rw [List.take_succ_cons, count_open_plain hi, count_close_plain hi]
      exact ih n
  | @loop body rest hbody _ ihbody ihrest =>
    intro n
    cases n with
    | zero => exact Nat.le_refl _
    | succ n =>
      rw [List.take_succ_cons, List.take_append, List.count_cons_self,
        List.count_cons_of_ne (by decide), List.count_append, List.count_append]
      -- The beginning ends inside the body, or it holds the body and its closing bracket.
      cases hn : n - body.length with
      | zero =>
        have hinside := ihbody n
        rw [List.take_zero, List.count_nil, List.count_nil]
        omega
      | succ m =>
        have hwhole : body.take n = body := List.take_of_length_le (by omega)
        have hcount := hbody.count_eq
        have hbehind := ihrest m
        rw [hwhole, List.take_succ_cons, List.count_cons_self, List.count_cons_of_ne (by decide)]
        omega

/-- Rising code does not begin with balanced code and a bracket that closes nothing. -/
theorem Rising.ne_close (h : Rising (a ++ .jumpIfNonZero :: b)) (ha : Balanced a) : False := by
  have hprefix := h (a.length + 1)
  have htake : (a ++ .jumpIfNonZero :: b).take (a.length + 1) = a ++ [.jumpIfNonZero] := by
    rw [List.take_length_add_append, List.take_succ_cons, List.take_zero]
  rw [htake, List.count_append, List.count_append, ha.count_eq] at hprefix
  simp only [List.count_singleton_self, List.count_singleton, beq_iff_eq, reduceCtorEq,
    if_false] at hprefix
  omega

/-- Balanced code does not end with a bracket that stays open and balanced code. -/
theorem Balanced.ne_open (h : Balanced (a ++ .jumpIfZero :: b)) (hb : Balanced b) : False := by
  have hcount := h.count_eq
  have hrising := h.rising a.length
  rw [List.take_left] at hrising
  rw [List.count_append, List.count_append, List.count_cons_self,
    List.count_cons_of_ne (by decide), hb.count_eq] at hcount
  omega

end Counting

section Joining

variable {a b code : List Instruction} {i : Instruction}

/-- Joining balanced code gives balanced code. -/
theorem Balanced.append (ha : Balanced a) (hb : Balanced b) : Balanced (a ++ b) := by
  induction ha with
  | nil => exact hb
  | plain hi _ ih => exact .plain hi ih
  | loop hbody _ _ ih =>
    rw [List.cons_append, List.append_assoc, List.cons_append]
    exact .loop hbody ih

/-- An instruction other than a bracket is balanced. -/
theorem balanced_singleton (hi : i.isJump = false) : Balanced [i] := .plain hi .nil

/-- A loop with a balanced body is balanced. -/
theorem Balanced.enclosed (h : Balanced code) :
    Balanced (.jumpIfZero :: (code ++ [.jumpIfNonZero])) :=
  .loop h .nil

/-- Balanced code ends at the first bracket that closes nothing. -/
theorem Balanced.eq_of_append_close {x y : List Instruction} (ha : Balanced a) (hb : Balanced b)
    (h : a ++ .jumpIfNonZero :: x = b ++ .jumpIfNonZero :: y) : a = b := by
  rcases List.append_eq_append_iff.mp h with ⟨more, hmore, hrest⟩ | ⟨more, hmore, hrest⟩
  · cases more with
    | nil => rw [hmore, List.append_nil]
    | cons j more =>
      cases hrest
      exact ((hmore ▸ hb).rising.ne_close ha).elim
  · cases more with
    | nil => rw [hmore, List.append_nil]
    | cons j more =>
      cases hrest
      exact ((hmore ▸ ha).rising.ne_close hb).elim

/-- Balanced code begins at the last bracket that is not closed. -/
theorem Balanced.eq_of_open_append {x y : List Instruction} (ha : Balanced a) (hb : Balanced b)
    (h : x ++ .jumpIfZero :: a = y ++ .jumpIfZero :: b) : a = b := by
  rcases List.append_eq_append_iff.mp h with ⟨more, _, hrest⟩ | ⟨more, _, hrest⟩
  · cases more with
    | nil =>
      cases hrest
      rfl
    | cons j more =>
      cases hrest
      exact (ha.ne_open hb).elim
  · cases more with
    | nil =>
      cases hrest
      rfl
    | cons j more =>
      cases hrest
      exact (hb.ne_open ha).elim

end Joining

section Pairs

variable {code a b : List Instruction} {p q : Nat}

/-- A pair opens with an opening bracket. -/
theorem Pairs.opens (h : Pairs code p q) : code[p]? = some .jumpIfZero := by
  obtain ⟨before, body, after, _, rfl, rfl, _⟩ := h
  simp

/-- A pair closes with a closing bracket. -/
theorem Pairs.closes (h : Pairs code p q) : code[q]? = some .jumpIfNonZero := by
  obtain ⟨before, body, after, _, rfl, _, rfl⟩ := h
  rw [Nat.add_assoc, List.getElem?_append_right (by omega)]
  simp [Nat.add_comm 1]

/-- Partners stay partners whatever stands around the code. -/
theorem Pairs.around (h : Pairs code p q) (a b : List Instruction) :
    Pairs (a ++ (code ++ b)) (a.length + p) (a.length + q) := by
  obtain ⟨before, body, after, hbody, rfl, rfl, rfl⟩ := h
  refine ⟨a ++ before, body, after ++ b, hbody, ?_, ?_, ?_⟩
  · simp only [List.append_assoc, List.cons_append]
  · rw [List.length_append]
  · rw [List.length_append]
    omega

/-- Partners stay partners when more code follows. -/
theorem Pairs.append (h : Pairs code p q) (b : List Instruction) : Pairs (code ++ b) p q := by
  have haround := h.around [] b
  rwa [List.nil_append, List.length_nil, Nat.zero_add, Nat.zero_add] at haround

/-- One more instruction gives no new pair, unless it closes a bracket. -/
theorem pairs_concat {i : Instruction} :
    Pairs (code ++ [i]) p q ↔ Pairs code p q ∨
      i = .jumpIfNonZero ∧ q = code.length ∧
        ∃ before body, Balanced body ∧ code = before ++ .jumpIfZero :: body ∧
          p = before.length := by
  constructor
  · rintro ⟨before, body, after, hbody, hcode, rfl, rfl⟩
    rcases after.eq_nil_or_concat with rfl | ⟨after, j, rfl⟩
    · have hsplit : code ++ [i] = (before ++ .jumpIfZero :: body) ++ [.jumpIfNonZero] := by
        rw [hcode, List.append_assoc, List.cons_append]
      obtain ⟨rfl, hi⟩ := List.append_inj' hsplit rfl
      refine .inr ⟨List.singleton_inj.mp hi, ?_, before, body, hbody, rfl, rfl⟩
      rw [List.length_append, List.length_cons]
      omega
    · have hsplit : code ++ [i] =
          (before ++ .jumpIfZero :: (body ++ .jumpIfNonZero :: after)) ++ [j] := by
        simp only [hcode, List.concat_eq_append, List.append_assoc, List.cons_append]
      obtain ⟨rfl, _⟩ := List.append_inj' hsplit rfl
      exact .inl ⟨before, body, after, hbody, rfl, rfl, rfl⟩
  · rintro (h | ⟨rfl, rfl, before, body, hbody, rfl, rfl⟩)
    · exact h.append [i]
    · refine ⟨before, body, [], hbody, ?_, rfl, ?_⟩
      · rw [List.append_assoc, List.cons_append]
      · rw [List.length_append, List.length_cons]
        omega

/-- Pairs that close within the first part of the code are pairs there. -/
theorem Pairs.of_append (h : Pairs (a ++ b) p q) (hq : q < a.length) : Pairs a p q := by
  induction b using List.reverseRecOn with
  | nil => rwa [List.append_nil] at h
  | append_singleton b i ih =>
    rw [← List.append_assoc] at h
    rcases pairs_concat.mp h with h | ⟨_, heq, _⟩
    · exact ih h
    · rw [List.length_append] at heq
      omega

/-- Brackets that belong together are brackets. -/
theorem Partners.exists_isJump (h : Partners code p q) :
    ∃ i, code[p]? = some i ∧ i.isJump = true := by
  rcases h with h | h
  · exact ⟨_, h.opens, rfl⟩
  · exact ⟨_, h.closes, rfl⟩

/-- Partners stay partners whatever stands around the code. -/
theorem Partners.around (h : Partners code p q) (a b : List Instruction) :
    Partners (a ++ (code ++ b)) (a.length + p) (a.length + q) :=
  h.imp (·.around a b) (·.around a b)

/-- Every bracket of balanced code has a partner. -/
theorem Balanced.exists_partner (h : Balanced code) {i : Instruction} (hp : code[p]? = some i)
    (hi : i.isJump = true) : ∃ q, Partners code p q := by
  induction h generalizing p with
  | nil => simp at hp
  | @plain j code hj _ ih =>
    cases p with
    | zero =>
      simp only [List.getElem?_cons_zero, Option.some.injEq] at hp
      rw [hp, hi] at hj
      cases hj
    | succ p =>
      obtain ⟨q, hq⟩ := ih hp
      have haround := hq.around [j] []
      rw [List.append_nil, List.length_singleton, Nat.add_comm 1 p] at haround
      exact ⟨1 + q, haround⟩
  | @loop body rest hbody _ ihbody ihrest =>
    have hloop : Pairs (.jumpIfZero :: (body ++ .jumpIfNonZero :: rest)) 0 (body.length + 1) :=
      ⟨[], body, rest, hbody, rfl, rfl, by rw [List.length_nil]; omega⟩
    cases p with
    | zero => exact ⟨_, .inl hloop⟩
    | succ p =>
      rw [List.getElem?_cons_succ] at hp
      rcases Nat.lt_trichotomy p body.length with hlt | rfl | hgt
      · rw [List.getElem?_append_left hlt] at hp
        obtain ⟨q, hq⟩ := ihbody hp
        have haround := hq.around [.jumpIfZero] (.jumpIfNonZero :: rest)
        rw [List.length_singleton, Nat.add_comm 1 p] at haround
        exact ⟨1 + q, haround⟩
      · exact ⟨0, .inr hloop⟩
      · obtain ⟨m, rfl⟩ : ∃ m, p = body.length + (m + 1) := ⟨p - body.length - 1, by omega⟩
        rw [List.getElem?_append_right (by omega), Nat.add_sub_cancel_left,
          List.getElem?_cons_succ] at hp
        obtain ⟨q, hq⟩ := ihrest hp
        have haround := hq.around (.jumpIfZero :: (body ++ [.jumpIfNonZero])) []
        have hlength : (Instruction.jumpIfZero :: (body ++ [.jumpIfNonZero])).length + m =
            body.length + (m + 1) + 1 := by
          rw [List.length_cons, List.length_append, List.length_singleton]
          omega
        rw [hlength, List.append_nil, List.cons_append, List.append_assoc] at haround
        exact ⟨_, haround⟩

end Pairs

section Opens

variable {code before : List Instruction} {stack outer : List Nat} {p q start : Nat}

/-- Balanced code opens nothing. -/
theorem Opens.append (h : Opens code stack) {more : List Instruction} (hmore : Balanced more) :
    Opens (code ++ more) stack := by
  cases h with
  | balanced h => exact .balanced (h.append hmore)
  | nested h hbody =>
    rw [List.append_assoc, List.cons_append]
    exact .nested h (hbody.append hmore)

/-- A bracket that is opened is the innermost. -/
theorem Opens.opening (h : Opens code stack) :
    Opens (code ++ [.jumpIfZero]) (code.length :: stack) :=
  .nested h .nil

/-- The innermost bracket stands in front of balanced code. -/
theorem Opens.exists_innermost (h : Opens code (start :: outer)) :
    ∃ before body, Opens before outer ∧ Balanced body ∧ code = before ++ .jumpIfZero :: body ∧
      start = before.length := by
  cases h with
  | nested h hbody => exact ⟨_, _, h, hbody, rfl, rfl⟩

/-- A closing bracket closes the innermost one. -/
theorem Opens.closing (h : Opens code (start :: outer)) :
    Opens (code ++ [.jumpIfNonZero]) outer := by
  obtain ⟨before, body, hbefore, hbody, rfl, _⟩ := h.exists_innermost
  rw [List.append_assoc, List.cons_append]
  exact hbefore.append hbody.enclosed

/-- A closing bracket is paired with the innermost one. -/
theorem Opens.pairs_closing (h : Opens code (start :: outer)) :
    Pairs (code ++ [.jumpIfNonZero]) p q ↔ Pairs code p q ∨ p = start ∧ q = code.length := by
  obtain ⟨before, body, _, hbody, hcode, rfl⟩ := h.exists_innermost
  rw [pairs_concat]
  refine or_congr_right ⟨?_, ?_⟩
  · rintro ⟨_, rfl, before', body', hbody', hcode', rfl⟩
    have hsplit := hcode.symm.trans hcode'
    have hsame := hbody.eq_of_open_append hbody' hsplit
    rw [hsame] at hsplit
    exact ⟨congrArg List.length (List.append_cancel_right hsplit).symm, rfl⟩
  · rintro ⟨rfl, rfl⟩
    exact ⟨rfl, rfl, before, body, hbody, hcode, rfl⟩

/-- Open brackets are among the instructions. -/
theorem Opens.lt_length (h : Opens code stack) (hp : p ∈ stack) : p < code.length := by
  induction h with
  | balanced _ => exact (List.not_mem_nil hp).elim
  | nested _ _ ih =>
    rw [List.length_append, List.length_cons]
    rcases List.mem_cons.mp hp with rfl | hp
    · omega
    · have hlt := ih hp
      omega

/-- No open bracket stands behind the innermost one. -/
theorem Opens.le_innermost (h : Opens code (start :: outer)) (hp : p ∈ start :: outer) :
    p ≤ start := by
  obtain ⟨before, _, hbefore, _, _, rfl⟩ := h.exists_innermost
  rcases List.mem_cons.mp hp with rfl | hp
  · exact Nat.le_refl _
  · exact Nat.le_of_lt (hbefore.lt_length hp)

/-- An open bracket opens, and what follows it never closes more than it opens. -/
theorem Opens.exists_rising (h : Opens code stack) (hp : p ∈ stack) :
    ∃ before after, code = before ++ .jumpIfZero :: after ∧ p = before.length ∧ Rising after := by
  induction h with
  | balanced _ => exact (List.not_mem_nil hp).elim
  | @nested before body outer _ hbody ih =>
    rcases List.mem_cons.mp hp with rfl | hp
    · exact ⟨before, body, rfl, rfl, hbody.rising⟩
    · obtain ⟨first, after, rfl, rfl, hafter⟩ := ih hp
      refine ⟨first, after ++ .jumpIfZero :: body, ?_, rfl, hafter.append hbody.rising.opening⟩
      rw [List.append_assoc, List.cons_append]

/-- An open bracket has no partner. -/
theorem Opens.not_pairs (h : Opens code stack) (hp : p ∈ stack) : ¬ Pairs code p q := by
  obtain ⟨before, after, rfl, rfl, hrising⟩ := h.exists_rising hp
  rintro ⟨before', body, rest, hbody, hcode, hlength, _⟩
  obtain ⟨rfl, hrest⟩ := List.append_inj hcode hlength
  rw [List.cons_inj_right] at hrest
  exact (hrest ▸ hrising).ne_close hbody

/-- Every bracket is open or has a partner. -/
theorem Opens.mem_or_partner (h : Opens code stack) {i : Instruction} (hp : code[p]? = some i)
    (hi : i.isJump = true) : p ∈ stack ∨ ∃ q, Partners code p q := by
  induction h generalizing p with
  | balanced h => exact .inr (h.exists_partner hp hi)
  | @nested before body outer _ hbody ih =>
    rcases Nat.lt_trichotomy p before.length with hlt | rfl | hgt
    · rw [List.getElem?_append_left hlt] at hp
      refine (ih hp).imp (List.mem_cons_of_mem _) ?_
      rintro ⟨q, hq⟩
      have haround := hq.around [] (.jumpIfZero :: body)
      rw [List.nil_append, List.length_nil, Nat.zero_add, Nat.zero_add] at haround
      exact ⟨q, haround⟩
    · exact .inl List.mem_cons_self
    · obtain ⟨m, rfl⟩ : ∃ m, p = before.length + (m + 1) := ⟨p - before.length - 1, by omega⟩
      rw [List.getElem?_append_right (by omega), Nat.add_sub_cancel_left,
        List.getElem?_cons_succ] at hp
      obtain ⟨q, hq⟩ := hbody.exists_partner hp hi
      have haround := hq.around (before ++ [.jumpIfZero]) []
      rw [List.append_nil, List.append_assoc, List.singleton_append, List.length_append,
        List.length_singleton, Nat.add_assoc, Nat.add_comm 1 m] at haround
      exact .inr ⟨_, haround⟩

/-- The open brackets are the opening ones without a partner. -/
theorem Opens.mem_iff (h : Opens code stack) :
    p ∈ stack ↔ code[p]? = some .jumpIfZero ∧ ∀ q, ¬ Pairs code p q := by
  constructor
  · intro hp
    obtain ⟨before, after, hcode, hlength, _⟩ := h.exists_rising hp
    exact ⟨by simp [hcode, hlength], fun q => h.not_pairs hp⟩
  · rintro ⟨hopen, hnone⟩
    rcases h.mem_or_partner hopen rfl with hp | ⟨q, hq | hq⟩
    · exact hp
    · exact absurd hq (hnone q)
    · rw [hq.closes] at hopen
      cases hopen

/-- Nothing is open behind code exactly when it is balanced. -/
theorem Opens.balanced_iff (h : Opens code stack) : Balanced code ↔ stack = [] := by
  constructor
  · intro hbalanced
    refine List.eq_nil_iff_forall_not_mem.mpr fun p hp => ?_
    obtain ⟨hopen, hnone⟩ := h.mem_iff.mp hp
    obtain ⟨q, hq | hq⟩ := hbalanced.exists_partner hopen rfl
    · exact hnone q hq
    · rw [hq.closes] at hopen
      cases hopen
  · rintro rfl
    cases h with
    | balanced h => exact h

/-- A closing bracket behind balanced code has no partner, whatever follows. -/
theorem Balanced.not_pairs_close (h : Balanced code) (more : List Instruction) :
    ¬ Pairs (code ++ .jumpIfNonZero :: more) p code.length := by
  intro hpairs
  rw [← List.singleton_append, ← List.append_assoc] at hpairs
  have hlength : code.length < (code ++ [Instruction.jumpIfNonZero]).length := by
    rw [List.length_append, List.length_singleton]
    exact Nat.lt_succ_self _
  rcases pairs_concat.mp (hpairs.of_append hlength) with hin | ⟨_, _, before, body, hbody, rfl, _⟩
  · have hnone := List.getElem?_eq_none (Nat.le_refl code.length)
    rw [hin.closes] at hnone
    cases hnone
  · exact h.ne_open hbody

end Opens

section JumpTable

variable {code : List Instruction} {jumps : Std.ExtTreeMap Nat Nat}

/-- A jump table lists the brackets and no other position. -/
theorem IsJumpTable.mem_iff (h : IsJumpTable code jumps) (hcode : Balanced code) {p : Nat} :
    p ∈ jumps ↔ ∃ i, code[p]? = some i ∧ i.isJump = true := by
  rw [← Std.ExtTreeMap.isSome_getElem?_iff_mem, Option.isSome_iff_exists]
  constructor
  · rintro ⟨target, htarget⟩
    obtain ⟨q, _, hq⟩ := (h p target).mp htarget
    exact hq.exists_isJump
  · rintro ⟨i, hp, hi⟩
    obtain ⟨q, hq⟩ := hcode.exists_partner hp hi
    exact ⟨q + 1, (h p _).mpr ⟨q, rfl, hq⟩⟩

/-- Code has one jump table. -/
theorem IsJumpTable.unique {jumps' : Std.ExtTreeMap Nat Nat} (h : IsJumpTable code jumps)
    (h' : IsJumpTable code jumps') : jumps = jumps' := by
  refine Std.ExtTreeMap.ext_getElem? fun p => Option.ext fun target => ?_
  rw [h p target, h' p target]

/-- The jump table of code without instructions is empty. -/
theorem isJumpTable_nil : IsJumpTable [] ∅ := by
  intro p target
  simp only [Std.ExtTreeMap.getElem?_empty, reduceCtorEq, false_iff, not_exists, not_and]
  intro q _ hq
  obtain ⟨i, hi, _⟩ := hq.exists_isJump
  simp at hi

/-- An instruction that closes nothing keeps the jump table. -/
theorem IsJumpTable.concat (h : IsJumpTable code jumps) {i : Instruction}
    (hi : i ≠ .jumpIfNonZero) : IsJumpTable (code ++ [i]) jumps := by
  intro p target
  have hpairs : ∀ p q, Pairs (code ++ [i]) p q ↔ Pairs code p q := by
    intro p q
    rw [pairs_concat, or_iff_left]
    exact fun hclose => hi hclose.1
  simp only [h p target, Partners, hpairs]

/-- Closing the innermost bracket adds it and its partner to the jump table. -/
theorem IsJumpTable.closing (h : IsJumpTable code jumps) {start : Nat} {outer : List Nat}
    (hopens : Opens code (start :: outer)) :
    IsJumpTable (code ++ [.jumpIfNonZero])
      ((jumps.insert start (code.length + 1)).insert code.length (start + 1)) := by
  intro p target
  have hstart : start < code.length := hopens.lt_length List.mem_cons_self
  have hopening := (hopens.mem_iff.mp List.mem_cons_self).1
  have hpartners : ∀ q, Partners (code ++ [.jumpIfNonZero]) p q ↔
      Partners code p q ∨ p = start ∧ q = code.length ∨ p = code.length ∧ q = start := by
    intro q
    simp only [Partners, hopens.pairs_closing]
    tauto
  -- Neither of the two brackets had a partner before.
  have hfresh : ∀ q, p = start ∨ p = code.length → ¬ Partners code p q := by
    rintro q (rfl | rfl) (hq | hq)
    · exact hopens.not_pairs List.mem_cons_self hq
    · rw [hq.closes] at hopening
      cases hopening
    · exact absurd (List.getElem?_eq_some_iff.mp hq.opens).1 (Nat.lt_irrefl _)
    · exact absurd (List.getElem?_eq_some_iff.mp hq.closes).1 (Nat.lt_irrefl _)
  simp only [hpartners, Std.ExtTreeMap.getElem?_insert, Std.LawfulEqCmp.compare_eq_iff_eq]
  by_cases hlast : code.length = p
  · subst hlast
    rw [if_pos rfl, Option.some.injEq]
    constructor
    · rintro rfl
      exact ⟨start, rfl, .inr (.inr ⟨rfl, rfl⟩)⟩
    · rintro ⟨q, rfl, hold | ⟨heq, _⟩ | ⟨_, rfl⟩⟩
      · exact absurd hold (hfresh q (.inr rfl))
      · omega
      · rfl
  · rw [if_neg hlast]
    by_cases hfirst : start = p
    · subst hfirst
      rw [if_pos rfl, Option.some.injEq]
      constructor
      · rintro rfl
        exact ⟨code.length, rfl, .inr (.inl ⟨rfl, rfl⟩)⟩
      · rintro ⟨q, rfl, hold | ⟨_, rfl⟩ | ⟨heq, _⟩⟩
        · exact absurd hold (hfresh q (.inl rfl))
        · rfl
        · omega
    · have hother : p ≠ start ∧ p ≠ code.length := ⟨Ne.symm hfirst, Ne.symm hlast⟩
      simp only [if_neg hfirst, h p target, hother, false_and, or_false]

end JumpTable

end TapeReach.Brackets
