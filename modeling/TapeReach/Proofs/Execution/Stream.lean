import TapeReach.Execution.Stream

/-!
# What a run sees of its input

A run never sees an interruption: it gets the results of the calls that go
through, one after the other, and behind the last one the input has ended for
good. Two streams with the same results cannot be told apart, and streams that
agree up to a fault cannot be told apart before it.
-/

namespace TapeReach

/-- What a call that is not interrupted results in. -/
def ReadAnswer.result? : ReadAnswer → Option (Except StreamFault (Option UInt8))
  | byte b => some (.ok (some b))
  | endOfInput => some (.ok none)
  | interrupted => none
  | fault => some (.error .read)

namespace InputStream

/-- The results of the coming calls, without those that are interrupted. -/
def results (s : InputStream) : List (Except StreamFault (Option UInt8)) :=
  s.answers.filterMap ReadAnswer.result?

/-- The result number `k` from here on. Behind the listed ones the input has ended. -/
def resultAt (s : InputStream) (k : Nat) : Except StreamFault (Option UInt8) :=
  s.results.getD k (.ok none)

/-- The byte that a result brings. -/
def received : Except StreamFault (Option UInt8) → List UInt8
  | .ok (some b) => [b]
  | .ok none => []
  | .error _ => []

/-- The bytes that are left. -/
def bytes (s : InputStream) : List UInt8 := s.results.flatMap received

/-- A call has gone through with this result and has left `rest`. -/
structure Answered (s : InputStream) (result : Except StreamFault (Option UInt8))
    (rest : InputStream) : Prop where
  /-- The result was the first of the list, unless the list was empty. -/
  results : s.results = result :: rest.results ∨
    result = .ok none ∧ s.results = [] ∧ rest.results = []
  /-- A byte counts as consumed. -/
  consumed : rest.consumed = s.consumed + (received result).length

/-- The streams give the same results. -/
structure SameResults (s t : InputStream) : Prop where
  consumed : t.consumed = s.consumed
  resultAt : ∀ k, t.resultAt k = s.resultAt k

/-- The second stream gives the results of the first as long as that is not broken. -/
structure AgreesUntilFault (s t : InputStream) : Prop where
  consumed : t.consumed = s.consumed
  resultAt : ∀ k, (∀ j ≤ k, s.resultAt j ≠ .error .read) → t.resultAt k = s.resultAt k

variable {s t rest : InputStream} {result : Except StreamFault (Option UInt8)}

/-- Repeated calls come to the first result of the list. -/
theorem answered_go (s : InputStream) (answers : List ReadAnswer) (calls : Nat) :
    Answered ⟨answers, calls, s.consumed⟩ (next.go s answers calls).1
      (next.go s answers calls).2 := by
  induction answers generalizing calls with
  | nil => exact ⟨.inr ⟨rfl, rfl, rfl⟩, rfl⟩
  | cons answer rest ih =>
    cases answer with
    | byte | endOfInput | fault => exact ⟨.inl rfl, rfl⟩
    | interrupted => exact ⟨(ih (calls + 1)).results, (ih (calls + 1)).consumed⟩

theorem answered_next (s : InputStream) : Answered s s.next.1 s.next.2 :=
  answered_go s s.answers s.calls

theorem answered_of_next (h : s.next = (result, rest)) : Answered s result rest := by
  have hanswered := s.answered_next
  rwa [h] at hanswered

namespace Answered

/-- A call gives the result that is due. -/
theorem resultAt_zero (h : Answered s result rest) : s.resultAt 0 = result := by
  rcases h.results with hs | ⟨rfl, hs, _⟩ <;> simp [InputStream.resultAt, hs]

/-- The results behind a call are those that were due behind the first. -/
theorem resultAt_succ (h : Answered s result rest) (k : Nat) :
    s.resultAt (k + 1) = rest.resultAt k := by
  rcases h.results with hs | ⟨rfl, hs, hrest⟩
  · simp [InputStream.resultAt, hs]
  · simp [InputStream.resultAt, hs, hrest]

/-- A call takes at most the first byte that is left. -/
theorem bytes (h : Answered s result rest) : s.bytes = received result ++ rest.bytes := by
  rcases h.results with hs | ⟨rfl, hs, hrest⟩
  · rw [InputStream.bytes, hs, List.flatMap_cons]
    rfl
  · rw [InputStream.bytes, InputStream.bytes, hs, hrest]
    rfl

end Answered

/-- Streams that differ in interruptions only give the same results. -/
theorem SameResults.of_results (hresults : t.results = s.results)
    (hconsumed : t.consumed = s.consumed) : SameResults s t := by
  refine ⟨hconsumed, fun k => ?_⟩
  rw [InputStream.resultAt, InputStream.resultAt, hresults]

/-- Streams with the same results answer a call in the same way. -/
theorem SameResults.exists_next (h : SameResults s t) (hnext : s.next = (result, rest)) :
    ∃ rest', t.next = (result, rest') ∧ SameResults rest rest' := by
  have hs := answered_of_next hnext
  have ht := t.answered_next
  have hresult : t.next.1 = result := by
    rw [← ht.resultAt_zero, h.resultAt, hs.resultAt_zero]
  refine ⟨t.next.2, Prod.ext hresult rfl, ?_, fun k => ?_⟩
  · rw [ht.consumed, hs.consumed, h.consumed, hresult]
  · rw [← ht.resultAt_succ, ← hs.resultAt_succ, h.resultAt]

/-- Streams that agree up to a fault answer a call in the same way, unless it fails. -/
theorem AgreesUntilFault.exists_next (h : AgreesUntilFault s t) {byte? : Option UInt8}
    (hnext : s.next = (.ok byte?, rest)) :
    ∃ rest', t.next = (.ok byte?, rest') ∧ AgreesUntilFault rest rest' := by
  have hs := answered_of_next hnext
  have ht := t.answered_next
  have hok : s.resultAt 0 ≠ .error .read := by
    rw [hs.resultAt_zero]
    nofun
  have hresult : t.next.1 = .ok byte? := by
    rw [← ht.resultAt_zero, ← hs.resultAt_zero]
    refine h.resultAt 0 fun j hj => ?_
    rwa [Nat.le_zero.mp hj]
  refine ⟨t.next.2, Prod.ext hresult rfl, ?_, fun k hk => ?_⟩
  · rw [ht.consumed, hs.consumed, h.consumed, hresult]
  · rw [← ht.resultAt_succ, ← hs.resultAt_succ]
    refine h.resultAt (k + 1) fun j hj => ?_
    cases j with
    | zero => exact hok
    | succ j =>
      rw [hs.resultAt_succ]
      exact hk j (Nat.le_of_succ_le_succ hj)

/-- A schedule of interruptions and a fault disturbs the bytes only from its fault on. -/
theorem resultAt_scheduleFrom (interrupts : List Nat) (failing : Option Nat)
    (count call : Nat) (bytes : List UInt8) {k : Nat}
    (hk : ∀ j ≤ k, resultAt ⟨scheduleFrom interrupts failing count call bytes, 0, 0⟩ j ≠
      .error .read) :
    (ofBytes bytes).resultAt k =
      resultAt ⟨scheduleFrom interrupts failing count call bytes, 0, 0⟩ k := by
  induction count generalizing call bytes k with
  | zero => rfl
  | succ count ih =>
    generalize hanswers : scheduleFrom interrupts failing (count + 1) call bytes = answers at hk ⊢
    unfold scheduleFrom at hanswers
    split at hanswers
    · subst hanswers
      exact ih (call + 1) bytes hk
    · split at hanswers
      · subst hanswers
        exact absurd rfl (hk 0 (Nat.zero_le k))
      -- Behind the bytes every undisturbed call comes to the end of the input.
      · cases bytes <;> subst hanswers <;> cases k
        case nil.zero => rfl
        case cons.zero => rfl
        case nil.succ k => exact ih (call + 1) [] fun j hj => hk (j + 1) (Nat.succ_le_succ hj)
        case cons.succ b rest k =>
          exact ih (call + 1) rest fun j hj => hk (j + 1) (Nat.succ_le_succ hj)

/-- A scheduled stream agrees with its bytes up to its fault. -/
theorem agreesUntilFault_ofSchedule (bytes : List UInt8) (interrupts : List Nat)
    (failing : Option Nat) (horizon : Nat) :
    AgreesUntilFault (ofSchedule bytes interrupts failing horizon) (ofBytes bytes) :=
  ⟨rfl, fun _ hk => resultAt_scheduleFrom interrupts failing _ 0 bytes hk⟩

end InputStream

end TapeReach
