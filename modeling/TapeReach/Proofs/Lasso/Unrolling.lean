import TapeReach.Proofs.Lasso.Verdict

/-!
# The run that a lasso stands for

A lasso with a cycle stands for a run that goes through its states and then
around the cycle for ever; a lasso with a dead end stands for the run that
stops there. Where a lasso refutes a target, consecutive states of this run
are linked, all of them are reachable, and none satisfies the target.
-/

namespace TapeReach.Lasso

variable {σ ε : Type}

/-- Where the run stands after `k` steps, as a position among the states of the lasso. -/
def position (lasso : Lasso σ) (k : Nat) : Nat :=
  match lasso.kind with
  | .deadEnd => k
  | .cycle =>
    if k < lasso.stem.length then k
    else lasso.stem.length + (k - lasso.stem.length) % lasso.cycle.length

/-- The state of the run after `k` steps, unless it has stopped before. -/
def stateAt? (lasso : Lasso σ) (k : Nat) : Option σ := lasso.states[lasso.position k]?

variable {lasso : Lasso σ} {k : Nat}

/-- The run starts with the first state. -/
theorem position_zero (lasso : Lasso σ) : lasso.position 0 = 0 := by
  unfold position
  cases lasso.kind with
  | deadEnd => rfl
  | cycle =>
    dsimp only
    split
    · rfl
    · rw [Nat.zero_sub, Nat.zero_mod]
      omega

/-- The run takes the states in order, and behind the last it returns to the cycle. -/
theorem position_succ (hkind : lasso.kind = .cycle) (hcycle : lasso.cycle ≠ []) (k : Nat) :
    (lasso.position k + 1 < lasso.length ∧ lasso.position (k + 1) = lasso.position k + 1) ∨
      (lasso.position k + 1 = lasso.length ∧ lasso.position (k + 1) = lasso.stem.length) := by
  have hpos : 0 < lasso.cycle.length := List.length_pos_of_ne_nil hcycle
  simp only [position, hkind, length]
  by_cases hk : k + 1 < lasso.stem.length
  · rw [if_pos hk, if_pos (by omega)]
    omega
  · rw [if_neg hk]
    by_cases hlast : k < lasso.stem.length
    · have hzero : k + 1 - lasso.stem.length = 0 := by omega
      rw [if_pos hlast, hzero, Nat.zero_mod]
      omega
    · have hsucc : k + 1 - lasso.stem.length = k - lasso.stem.length + 1 := by omega
      have hlt := Nat.mod_lt (k - lasso.stem.length) hpos
      rw [if_neg hlast, hsucc, ← Nat.mod_add_mod]
      generalize (k - lasso.stem.length) % lasso.cycle.length = r at hlt ⊢
      by_cases hend : r + 1 = lasso.cycle.length
      · rw [hend, Nat.mod_self]
        omega
      · rw [Nat.mod_eq_of_lt (by omega)]
        omega

/-- The run is among the states of the lasso as long as it has not stopped. -/
theorem position_lt (hcycle : lasso.cycle ≠ [])
    (hk : lasso.kind = .cycle ∨ k < lasso.length) : lasso.position k < lasso.length := by
  have hpos : 0 < lasso.cycle.length := List.length_pos_of_ne_nil hcycle
  cases hkind : lasso.kind with
  | deadEnd =>
    rcases hk with hcyclic | hlt
    · rw [hkind] at hcyclic
      cases hcyclic
    · simpa only [position, hkind] using hlt
  | cycle =>
    simp only [position, hkind, length]
    split
    · omega
    · have hlt := Nat.mod_lt (k - lasso.stem.length) hpos
      omega

variable {system : TransitionSystem σ ε} {isTarget : σ → Bool}

/-- A run that has not stopped is in a state of the lasso. -/
theorem Refutes.exists_stateAt (h : lasso.Refutes system isTarget)
    (hk : lasso.kind = .cycle ∨ k < lasso.length) :
    ∃ s ∈ lasso.states, lasso.stateAt? k = some s := by
  have hlt := position_lt h.cycleNonempty hk
  rw [length, ← List.length_append] at hlt
  exact ⟨lasso.states[lasso.position k], List.getElem_mem hlt, List.getElem?_eq_getElem hlt⟩

/-- The run starts in the initial state. -/
theorem Refutes.stateAt_zero (h : lasso.Refutes system isTarget) :
    lasso.stateAt? 0 = some system.initial := by
  rw [stateAt?, position_zero, ← List.head?_eq_getElem?, h.first]

/-- Neighbours on a lasso are linked. -/
theorem Refutes.leads_next (h : lasso.Refutes system isTarget) {i : Nat} {s t : σ}
    (hs : lasso.states[i]? = some s) (ht : lasso.states[i + 1]? = some t) : system.Leads s t := by
  obtain ⟨hi, rfl⟩ := List.getElem?_eq_some_iff.mp hs
  obtain ⟨hnext, rfl⟩ := List.getElem?_eq_some_iff.mp ht
  exact List.isChain_iff_getElem.mp h.linked i hnext

/-- Each state of the run is among the successors of the one before it. -/
theorem Refutes.leads (h : lasso.Refutes system isTarget) {s t : σ}
    (hs : lasso.stateAt? k = some s) (ht : lasso.stateAt? (k + 1) = some t) :
    system.Leads s t := by
  unfold stateAt? at hs ht
  cases hkind : lasso.kind with
  | deadEnd =>
    simp only [position, hkind] at hs ht
    exact h.leads_next hs ht
  | cycle =>
    rcases position_succ hkind h.cycleNonempty k with ⟨_, hsucc⟩ | ⟨hlast, hback⟩
    · rw [hsucc] at ht
      exact h.leads_next hs ht
    -- Behind the last state the run is at the first state of the cycle again.
    · obtain ⟨first, last, hfirst, hend, hleads⟩ := h.closes hkind
      have hlen : lasso.states.length = lasso.position k + 1 := by
        rw [hlast, length, states, List.length_append]
      have hs' : s = last := by
        have hgetLast : lasso.states.getLast? = some last := by
          rw [states, List.getLast?_append, hend, Option.some_or]
        rw [List.getLast?_eq_getElem?, hlen, Nat.add_sub_cancel, hs, Option.some.injEq] at hgetLast
        exact hgetLast
      have ht' : t = first := by
        rw [hback, states, List.getElem?_append_right (Nat.le_refl _), Nat.sub_self,
          ← List.head?_eq_getElem?, hfirst, Option.some.injEq] at ht
        exact ht.symm
      rw [hs', ht']
      exact hleads

/-- The states of a lasso are reachable. -/
theorem Refutes.reachable (h : lasso.Refutes system isTarget) {s : σ} (hs : s ∈ lasso.states) :
    system.Reachable s := by
  obtain ⟨i, hi⟩ := List.mem_iff_getElem?.mp hs
  clear hs
  induction i generalizing s with
  | zero =>
    rw [← List.head?_eq_getElem?, h.first, Option.some.injEq] at hi
    exact hi ▸ .initial
  | succ i ih =>
    have hlt : i < lasso.states.length := by
      have hnext := (List.getElem?_eq_some_iff.mp hi).1
      omega
    have hprev := List.getElem?_eq_getElem hlt
    exact .next (ih hprev) (h.leads_next hprev hi)

/-- A state of a lasso leads on to a state of the lasso, or it is a dead end. -/
theorem Refutes.leads_or_stops (h : lasso.Refutes system isTarget) {s : σ}
    (hs : s ∈ lasso.states) :
    (∃ t ∈ lasso.states, system.Leads s t) ∨ system.successors s = .ok [] := by
  obtain ⟨i, hi⟩ := List.mem_iff_getElem?.mp hs
  have hlt : i < lasso.states.length := (List.getElem?_eq_some_iff.mp hi).1
  by_cases hlast : i + 1 < lasso.states.length
  · have ht := List.getElem?_eq_getElem hlast
    exact .inl ⟨_, List.getElem_mem hlast, h.leads_next hi ht⟩
  · have hend : lasso.cycle.getLast? = some s := by
      have hgetLast : lasso.states.getLast? = some s := by
        have hindex : lasso.states.length - 1 = i := by omega
        rw [List.getLast?_eq_getElem?, hindex, hi]
      rwa [states, List.getLast?_append_of_ne_nil _ h.cycleNonempty] at hgetLast
    cases hkind : lasso.kind with
    | cycle =>
      obtain ⟨first, last, hfirst, hlast, hleads⟩ := h.closes hkind
      rw [hend, Option.some.injEq] at hlast
      have hmem : first ∈ lasso.states := List.mem_append_right _ (List.mem_of_head? hfirst)
      exact .inl ⟨first, hmem, hlast ▸ hleads⟩
    | deadEnd =>
      obtain ⟨last, hcycle, hstuck⟩ := h.stops hkind
      rw [hcycle, List.getLast?_singleton, Option.some.injEq] at hend
      exact .inr (hend ▸ hstuck)

/-- A target that is refuted by a lasso is inevitable from none of its states. -/
theorem Refutes.not_inevitable (h : lasso.Refutes system isTarget) {s : σ}
    (hs : s ∈ lasso.states) : ¬ system.Inevitable isTarget s := by
  intro hinevitable
  induction hinevitable with
  | here ht =>
    rw [h.avoids _ hs] at ht
    cases ht
  | next hnext hne _ ih =>
    rcases h.leads_or_stops hs with ⟨t, ht, next', hnext', hmem⟩ | hstuck
    · rw [hnext] at hnext'
      cases hnext'
      exact ih t hmem ht
    · rw [hnext] at hstuck
      cases hstuck
      exact hne rfl

/-- A target that is refuted by a lasso is not inevitable from the initial state. -/
theorem Refutes.not_inevitable_initial (h : lasso.Refutes system isTarget) :
    ¬ system.Inevitable isTarget system.initial :=
  h.not_inevitable (List.mem_of_head? h.first)

end TapeReach.Lasso
