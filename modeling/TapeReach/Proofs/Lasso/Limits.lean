import TapeReach.Proofs.Lasso.Iterations
import TapeReach.Proofs.Lasso.Verdict

/-!
# What limits do to a search

An iteration under limits does what it does without them, or the limits stop
it: a poll calls the search off, or the next state would be one too many. So
an answer that limits let through is the answer without them, counters
included. A limit on the states alone is a threshold: it lets the whole search
through if the search visits no more states than the limit, and otherwise
stops it when that many have been visited. The initial state is visited in
any case.
-/

namespace TapeReach.Search

variable {σ ε : Type}

/-- The search ended by itself: with an answer, or because successors are not known. -/
def Ended (result : SearchResult σ ε) : Prop :=
  ∀ reason, result.verdict ≠ .ok (.incomplete reason)

/-- What a limit of `m` states makes of the result of a search without limits. -/
structure Threshold (m : Nat) (unlimited limited : SearchResult σ ε) : Prop where
  /-- A search within the limit is let through. -/
  within : unlimited.stats.visited ≤ max m 1 → limited = unlimited
  /-- A search beyond the limit is stopped for that reason. -/
  reason : max m 1 < unlimited.stats.visited →
    limited.verdict = .ok (.incomplete (.stateLimit m))
  /-- Then the states of the limit have been visited. -/
  visited : max m 1 < unlimited.stats.visited → limited.stats.visited = max m 1

/-- A search within the limit that is let through meets the threshold. -/
theorem threshold_of_le {m : Nat} {r : SearchResult σ ε} (h : r.stats.visited ≤ max m 1) :
    Threshold m r r where
  within _ := rfl
  reason hlt := absurd h (Nat.not_le.mpr hlt)
  visited hlt := absurd h (Nat.not_le.mpr hlt)

/-- A search beyond the limit that is stopped at the limit meets the threshold. -/
theorem threshold_of_lt {m : Nat} {r : SearchResult σ ε} {stats : SearchStats}
    (h : max m 1 < r.stats.visited) (hstats : stats.visited = max m 1) :
    Threshold m r ⟨.ok (.incomplete (.stateLimit m)), stats⟩ where
  within hle := absurd h (Nat.not_lt.mpr hle)
  reason _ := rfl
  visited _ := hstats

variable [BEq σ] [Hashable σ] {system : TransitionSystem σ ε} {isTarget : σ → Bool}
  {limits : Limits} {polls : Polls}

/-- A successor under limits is considered as without them, or it would be entered without
them and is one state too many. -/
theorem consider_unlimited (system : TransitionSystem σ ε) (isTarget : σ → Bool) (limits : Limits)
    (s : Search σ) (y : σ) :
    consider system isTarget limits s y = consider system isTarget {} s y ∨
      ∃ reason, limits.forbid? s.stats.visited = some reason ∧
        consider system isTarget limits s y = .done ⟨.ok (.incomplete reason), s.stats⟩ ∧
        consider system isTarget {} s y = enter system s y := by
  unfold consider
  split
  · exact .inl rfl
  · split
    · exact .inl rfl
    · split
      · exact .inl rfl
      · cases hf : limits.forbid? s.stats.visited with
        | none => exact .inl rfl
        | some reason => exact .inr ⟨reason, rfl, rfl, rfl⟩

/-- How limits stop an iteration from `s`. -/
inductive Stops (system : TransitionSystem σ ε) (isTarget : σ → Bool) (limits : Limits)
    (polls : Polls) (s : Search σ) : StopReason → Prop
  /-- A poll calls the search off. -/
  | poll {reason : StopReason} (hp : poll? limits polls s.iterations = some reason) :
      Stops system isTarget limits polls s reason
  /-- Without limits a state would be entered. -/
  | states {reason : StopReason} {t : Search σ} {y : σ}
      (hf : limits.forbid? s.stats.visited = some reason) (ht : t.stats = s.stats)
      (henter : step system isTarget {} {} s = enter system t y) :
      Stops system isTarget limits polls s reason

/-- An iteration under limits is one without them, unless they stop it. -/
theorem step_unlimited (system : TransitionSystem σ ε) (isTarget : σ → Bool) (limits : Limits)
    (polls : Polls) (s : Search σ) :
    step system isTarget limits polls s = step system isTarget {} {} s ∨
      ∃ reason, Stops system isTarget limits polls s reason ∧
        step system isTarget limits polls s = .done ⟨.ok (.incomplete reason), s.stats⟩ := by
  have hfree : poll? {} {} s.iterations = none := poll?_eq_none rfl (fun _ => rfl) s.iterations
  cases hp : poll? limits polls s.iterations with
  | some reason =>
    refine .inr ⟨reason, .poll hp, ?_⟩
    simp only [step, hp, answer]
  | none =>
    rcases stack_cases s.stack with hs | ⟨front, x, hs⟩ | ⟨front, x, y, rest, hs⟩
    · rw [step_empty hp hs, step_empty hfree hs]
      exact .inl rfl
    · rw [step_push_nil hp hs, step_push_nil hfree hs]
      exact .inl rfl
    · have hstep : step system isTarget {} {} s = consider system isTarget {} _ y :=
        step_push_cons hfree hs
      rw [step_push_cons hp hs, hstep]
      rcases consider_unlimited system isTarget limits _ y with
        heq | ⟨reason, hf, hstop, henter⟩
      · exact .inl heq
      · refine .inr ⟨reason, .states (y := y) hf ?_ (hstep.trans henter), hstop⟩
        rfl

/-- A loop that ends by itself under limits ends alike without them. -/
theorem iterate_unlimited {n : Nat} {s : Search σ} {r : SearchResult σ ε} (hr : Ended r)
    (h : Loop.iterate (step system isTarget limits polls) n s = .done r) :
    Loop.iterate (step system isTarget {} {}) n s = .done r := by
  induction n generalizing s with
  | zero => cases h
  | succ n ih =>
    rcases step_unlimited system isTarget limits polls s with heq | ⟨reason, _, hstop⟩
    · simp only [Loop.iterate, heq] at h ⊢
      cases hnext : step system isTarget {} {} s with
      | more t =>
        rw [hnext] at h
        exact ih h
      | done q =>
        rw [hnext] at h
        exact h
    · simp only [Loop.iterate, hstop, Loop.Step.done.injEq] at h
      exact absurd (h ▸ rfl) (hr reason)

section Visited

/-- Entering a state counts it. -/
theorem enter_visited {s : Search σ} {y : σ} :
    (∀ t, enter system s y = .more t → t.stats.visited = s.stats.visited + 1) ∧
      ∀ r, enter system s y = .done r → r.stats.visited = s.stats.visited + 1 := by
  constructor
  · intro t ht
    obtain ⟨next, _, _, rfl⟩ := enter_more ht
    rfl
  · intro r hr
    rcases enter_done hr with ⟨e, _, rfl⟩ | ⟨_, rfl⟩ <;> rfl

/-- An iteration that goes on counts at most one state, and only if the limits allow it. -/
theorem visited_of_step_more {s t : Search σ}
    (h : step system isTarget limits polls s = .more t) :
    t.stats.visited = s.stats.visited ∨
      t.stats.visited = s.stats.visited + 1 ∧ limits.forbid? s.stats.visited = none := by
  cases (step_more h).2 with
  | close => exact .inl rfl
  | skip => exact .inl rfl
  | enter _ _ _ _ hf => exact .inr ⟨rfl, hf⟩

/-- So does an iteration that ends. -/
theorem visited_of_step_done {s : Search σ} {r : SearchResult σ ε}
    (h : step system isTarget limits polls s = .done r) :
    r.stats.visited = s.stats.visited ∨
      r.stats.visited = s.stats.visited + 1 ∧ limits.forbid? s.stats.visited = none := by
  cases step_done h with
  | polled => exact .inl rfl
  | exhausted => exact .inl rfl
  | cycle => exact .inl rfl
  | limited => exact .inl rfl
  | failed _ _ _ _ hf => exact .inr ⟨rfl, hf⟩
  | deadEnd _ _ _ _ hf => exact .inr ⟨rfl, hf⟩

/-- No state is uncounted again. -/
theorem visited_le_of_iterate {n : Nat} {s : Search σ} {r : SearchResult σ ε}
    (h : Loop.iterate (step system isTarget limits polls) n s = .done r) :
    s.stats.visited ≤ r.stats.visited := by
  have hmore : ∀ t u : Search σ, s.stats.visited ≤ t.stats.visited →
      step system isTarget limits polls t = .more u → s.stats.visited ≤ u.stats.visited := by
    intro t u hle htu
    have hvisited := visited_of_step_more htu
    omega
  obtain ⟨t, hle, hlast⟩ := Loop.iterate_done_invariant hmore (Nat.le_refl _) h
  have hvisited := visited_of_step_done hlast
  omega

/-- A loop whose first iteration enters a state ends with one more state counted. -/
theorem visited_lt_of_enter {n : Nat} {s t : Search σ} {y : σ} {r : SearchResult σ ε}
    (ht : t.stats = s.stats) (henter : step system isTarget limits polls s = enter system t y)
    (h : Loop.iterate (step system isTarget limits polls) (n + 1) s = .done r) :
    s.stats.visited < r.stats.visited := by
  have hvisited : t.stats.visited = s.stats.visited := congrArg SearchStats.visited ht
  simp only [Loop.iterate, henter] at h
  cases hnext : enter system t y with
  | more u =>
    rw [hnext] at h
    have hcount := enter_visited.1 u hnext
    have hle := visited_le_of_iterate h
    omega
  | done q =>
    rw [hnext, Loop.Step.done.injEq] at h
    have hcount := enter_visited.2 q hnext
    rw [h] at hcount
    omega

end Visited

section StateLimit

variable {m : Nat}

/-- A limit on the states forbids a further state when that many have been visited. -/
theorem forbid?_eq_some {visited : Nat} {reason : StopReason}
    (h : Limits.forbid? ⟨some m, none⟩ visited = some reason) :
    m ≤ visited ∧ reason = .stateLimit m := by
  change (if m ≤ visited then some (.stateLimit m) else none) = some reason at h
  split at h
  · rename_i hle
    cases h
    exact ⟨hle, rfl⟩
  · cases h

/-- It allows a further state only while there are fewer. -/
theorem forbid?_eq_none {visited : Nat} (h : Limits.forbid? ⟨some m, none⟩ visited = none) :
    visited < m := by
  change (if m ≤ visited then some (StopReason.stateLimit m) else none) = none at h
  split at h
  · cases h
  · omega

/-- A loop that ends without limits ends under a limit on the states as well, at the
threshold. -/
theorem iterate_threshold (hcancel : ∀ n, polls.cancelled n = false) {n : Nat} {s : Search σ}
    {r : SearchResult σ ε} (hpos : 1 ≤ s.stats.visited) (hle : s.stats.visited ≤ max m 1)
    (h : Loop.iterate (step system isTarget {} {}) n s = .done r) :
    ∃ q, Loop.iterate (step system isTarget ⟨some m, none⟩ polls) n s = .done q ∧
      Threshold m r q := by
  induction n generalizing s with
  | zero => cases h
  | succ n ih =>
    rcases step_unlimited system isTarget ⟨some m, none⟩ polls s with
      heq | ⟨reason, hstops, hstop⟩
    · simp only [Loop.iterate, ← heq] at h ⊢
      cases hnext : step system isTarget ⟨some m, none⟩ polls s with
      | more t =>
        rw [hnext] at h
        have hvisited := (visited_of_step_more hnext).imp_right (And.imp_right forbid?_eq_none)
        exact ih (by omega) (by omega) h
      | done q =>
        rw [hnext, Loop.Step.done.injEq] at h
        have hvisited := (visited_of_step_done hnext).imp_right (And.imp_right forbid?_eq_none)
        have hwithin : r.stats.visited ≤ max m 1 := by
          rw [← h]
          omega
        exact ⟨r, by rw [h], threshold_of_le hwithin⟩
    · cases hstops with
      | poll hp =>
        rw [poll?_eq_none rfl hcancel] at hp
        cases hp
      | states hf ht henter =>
        -- The state that is refused here is entered without the limit, and stays counted.
        obtain ⟨hfull, rfl⟩ := forbid?_eq_some hf
        have hlt := visited_lt_of_enter ht henter h
        refine ⟨⟨.ok (.incomplete (.stateLimit m)), s.stats⟩, ?_, threshold_of_lt ?_ ?_⟩
        · simp only [Loop.iterate, hstop]
        · omega
        · omega

end StateLimit

/-- A search that begins its iterations has counted the initial state. -/
theorem visited_of_start_more {s : Search σ} (h : start system isTarget = .more s) :
    s.stats.visited = 1 := by
  obtain ⟨_, _, _, _, rfl⟩ := start_more h
  rfl

/-- So has a search that ends before. -/
theorem visited_of_start_done {r : SearchResult σ ε} (h : start system isTarget = .done r) :
    r.stats.visited = 1 := by
  rcases start_done h with ⟨_, rfl⟩ | ⟨_, ⟨_, _, rfl⟩ | ⟨_, rfl⟩⟩ <;> rfl

/-- A search that ends by itself has taken no more iterations than its rounds. -/
theorem Ended.endsWithin {rounds : Nat}
    (h : Ended (run system isTarget limits polls rounds)) :
    EndsWithin system isTarget limits polls (2 ^ rounds - 1)
      (run system isTarget limits polls rounds) := by
  cases hstart : start system isTarget with
  | done r =>
    have hrun : run system isTarget limits polls rounds = r := by simp only [run, hstart]
    exact .inl (by rw [hstart, hrun])
  | more first =>
    cases hloop : Loop.iterate (step system isTarget limits polls) (2 ^ rounds - 1) first with
    | done r =>
      have hrun : run system isTarget limits polls rounds = r := by
        simp only [run, hstart, Loop.rounds_eq_iterate, Nat.mul_one, hloop]
      exact .inr ⟨first, hstart, by rw [hloop, hrun]⟩
    | more s =>
      have hrun : (run system isTarget limits polls rounds).verdict =
          .ok (.incomplete .iterationLimit) := by
        simp only [run, hstart, Loop.rounds_eq_iterate, Nat.mul_one, hloop]
      exact absurd hrun (h .iterationLimit)

/-- A search that ends by itself under limits ends alike without them. -/
theorem EndsWithin.unlimited {n : Nat} {r : SearchResult σ ε} (hr : Ended r)
    (h : EndsWithin system isTarget limits polls n r) : EndsWithin system isTarget {} {} n r := by
  rcases h with hstart | ⟨first, hstart, hdone⟩
  · exact .inl hstart
  · exact .inr ⟨first, hstart, iterate_unlimited hr hdone⟩

/-- A search that ends without limits ends under a limit on the states at the threshold. -/
theorem EndsWithin.exists_threshold {n : Nat} {r : SearchResult σ ε}
    (hcancel : ∀ n, polls.cancelled n = false) (h : EndsWithin system isTarget {} {} n r) (m : Nat) :
    ∃ q, EndsWithin system isTarget ⟨some m, none⟩ polls n q ∧ Threshold m r q := by
  rcases h with hstart | ⟨first, hstart, hdone⟩
  · have hvisited := visited_of_start_done hstart
    exact ⟨r, .inl hstart, threshold_of_le (by omega)⟩
  · have hvisited := visited_of_start_more hstart
    obtain ⟨q, hq, hthreshold⟩ := iterate_threshold (m := m) hcancel (by omega) (by omega) hdone
    exact ⟨q, .inr ⟨first, hstart, hq⟩, hthreshold⟩

/-- Limits never change an answer. Whatever the limits and whatever the polls say, a search
that ends by itself has the result of the search without limits, counters included. And a
limit of `m` states alone lets through exactly the searches that visit at most `max m 1`
states, and stops the others when they have visited that many. -/
theorem run_limits_exact (system : TransitionSystem σ ε) (isTarget : σ → Bool) (rounds : Nat) :
    (∀ limits polls, Ended (run system isTarget limits polls rounds) →
      ∀ more, rounds ≤ more →
        run system isTarget {} {} more = run system isTarget limits polls rounds) ∧
    ∀ (m : Nat) (polls : Polls), (∀ n, polls.cancelled n = false) →
      Ended (run system isTarget {} {} rounds) →
        Threshold m (run system isTarget {} {} rounds)
          (run system isTarget ⟨some m, none⟩ polls rounds) := by
  constructor
  · intro limits polls hended more hmore
    have hpow : 2 ^ rounds ≤ 2 ^ more := Nat.pow_le_pow_right (by decide) hmore
    exact (hended.endsWithin.unlimited hended).run_eq (by omega)
  · intro m polls hcancel hended
    obtain ⟨q, hq, hthreshold⟩ := hended.endsWithin.exists_threshold hcancel m
    rw [hq.run_eq (Nat.le_refl _)]
    exact hthreshold

/-- Two states are visited before counting up arrives at two: a limit of two states and a
time that is not up make no difference, and a limit of one state stops at the first. -/
theorem counting_limited :
    run counting (· == 2) {} {} 4 = run counting (· == 2) ⟨some 2, some ⟨1⟩⟩ {} 3 ∧
      run counting (· == 2) ⟨some 2, none⟩ {} 3 = ⟨.ok .unavoidable, ⟨2, 2, 2⟩⟩ ∧
      (run counting (· == 2) ⟨some 1, none⟩ {} 3).verdict = .ok (.incomplete (.stateLimit 1)) ∧
      (run counting (· == 2) ⟨some 1, none⟩ {} 3).stats.visited = 1 := by
  have hfree : run counting (· == 2) {} {} 3 = ⟨.ok .unavoidable, ⟨2, 2, 2⟩⟩ := by
    simp [run, counting, start, enter, Loop.rounds_eq_iterate, Loop.iterate, step, consider,
      poll?, pollInterval, answer, push, close, Limits.forbid?]
  have hbound : run counting (· == 2) ⟨some 2, some ⟨1⟩⟩ {} 3 = ⟨.ok .unavoidable, ⟨2, 2, 2⟩⟩ := by
    simp [run, counting, start, enter, Loop.rounds_eq_iterate, Loop.iterate, step, consider,
      poll?, pollInterval, answer, push, close, Limits.forbid?]
  obtain ⟨hsame, hexact⟩ := run_limits_exact counting (· == 2) 3
  have hended : Ended (run counting (· == 2) {} {} 3) := by
    intro reason hreason
    rw [hfree] at hreason
    cases hreason
  have hended' : Ended (run counting (· == 2) ⟨some 2, some ⟨1⟩⟩ {} 3) := by
    intro reason hreason
    rw [hbound] at hreason
    cases hreason
  have hvisited : (run counting (· == 2) {} {} 3).stats.visited = 2 := by rw [hfree]
  have htwo := hexact 2 {} (fun _ => rfl) hended
  have hone := hexact 1 {} (fun _ => rfl) hended
  refine ⟨hsame _ {} hended' 4 (by omega), ?_, hone.reason ?_, hone.visited ?_⟩
  · rw [htwo.within (by omega), hfree]
  · omega
  · omega

end TapeReach.Search
