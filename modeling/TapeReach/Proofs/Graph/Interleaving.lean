import TapeReach.Proofs.Graph.Exactness
import TapeReach.Proofs.Graph.Workers

/-!
# Exploring with workers

An exploration with workers shares out every level anew and lets the workers
take their turns in any order; what they have seen is kept from level to
level. The states collected at a level come in an order that depends on the
turns, but they are sorted before they get numbers. So the graph is the same
after every level, whatever the turns and however many the workers, and it is
the graph of the exploration without workers.
-/

namespace TapeReach

variable {σ ε : Type}

/-- States that the order tells apart are sorted in one way. -/
theorem mergeSort_eq_of_perm [Ord σ] [Std.TransOrd σ] {xs ys : List σ} (hperm : xs.Perm ys)
    (hnodup : xs.Nodup) (hfaithful : ∀ a ∈ xs, ∀ b ∈ xs, compare a b = .eq → a = b) :
    (xs.mergeSort fun a b => (compare a b).isLE) = ys.mergeSort fun a b => (compare a b).isLE := by
  have hxs := pairwise_lt_mergeSort hnodup hfaithful
  have hys := pairwise_lt_mergeSort (hperm.nodup_iff.mp hnodup) fun a ha b hb =>
    hfaithful a (hperm.mem_iff.mpr ha) b (hperm.mem_iff.mpr hb)
  have hsorted := (xs.mergeSort_perm fun a b => (compare a b).isLE).trans
    (hperm.trans (ys.mergeSort_perm fun a b => (compare a b).isLE).symm)
  refine List.Perm.eq_of_pairwise (fun a b _ _ hab hba => ?_) hxs hys hsorted
  rw [Std.OrientedOrd.eq_swap, hba] at hab
  cases hab

namespace Crew

variable [BEq σ] [Hashable σ] {crew crew' : Crew σ} {seen : Std.HashSet σ}
  {lists : List (List σ)} {shares shares' : List (List Nat)}

/-- The workers have handled a level: its nodes were shared out, and after some turns none is
left. -/
structure Handles (crew : Crew σ) (seen : Std.HashSet σ) (lists : List (List σ))
    (shares : List (List Nat)) : Prop where
  /-- Every node is in one share, once. -/
  shared : shares.flatten.Perm (List.range lists.length)
  /-- The workers have taken some turns. -/
  turns : ∃ turns, (start seen lists shares).run turns = crew
  /-- No node is left. -/
  finished : crew.Finished

/-- Any number of workers can handle a level, but there must be one. -/
theorem exists_handles (seen : Std.HashSet σ) (lists : List (List σ)) {workers : Nat}
    (hworkers : 0 < workers) :
    ∃ (shares : List (List Nat)) (crew : Crew σ),
      shares.length = workers ∧ crew.Handles seen lists shares := by
  obtain ⟨n, rfl⟩ := Nat.exists_eq_succ_of_ne_zero hworkers.ne'
  have hshared : (List.range lists.length :: List.replicate n []).flatten.Perm
      (List.range lists.length) := by
    simp
  obtain ⟨turns, hfinished⟩ :=
    (start seen lists (List.range lists.length :: List.replicate n [])).exists_finished
  exact ⟨_, _, by simp, ⟨hshared, ⟨turns, rfl⟩, hfinished⟩⟩

variable [LawfulBEq σ]

/-- What holds between turns holds when the level has been handled. -/
theorem Handles.invariant (h : crew.Handles seen lists shares) : Invariant seen lists crew := by
  obtain ⟨turns, rfl⟩ := h.turns
  exact (invariant_start h.shared).run turns

/-- The states collected are the successors that had not been seen. -/
theorem Handles.mem_collected (h : crew.Handles seen lists shares) (x : σ) :
    x ∈ crew.collected ↔ x ∈ lists.flatten ∧ x ∉ seen :=
  h.invariant.mem_collected h.finished x

/-- Workers with other shares and other turns collect the same states. -/
theorem Handles.collected_perm (h : crew.Handles seen lists shares)
    (h' : crew'.Handles seen lists shares') : crew.collected.Perm crew'.collected := by
  refine (List.perm_ext_iff_of_nodup h.invariant.nodup h'.invariant.nodup).mpr fun x => ?_
  rw [h.mem_collected, h'.mem_collected]

/-- If the states with numbers had been seen, the workers collect those without. -/
theorem Handles.collected_perm_fresh (h : crew.Handles seen lists shares) {graph : StateGraph σ}
    (hseen : ∀ x, x ∈ seen ↔ x ∈ graph.index) :
    crew.collected.Perm (graph.fresh lists.flatten) := by
  have hfresh := graph.collected_fresh lists.flatten
  refine (List.perm_ext_iff_of_nodup h.invariant.nodup hfresh.nodup).mpr fun x => ?_
  rw [h.mem_collected, hseen, hfresh.mem]

end Crew

namespace Explorer

variable [BEq σ] [Hashable σ] [Ord σ] {system : TransitionSystem σ ε} {maxStates : Option Nat}
  {workers : Nat} {s t : Explorer σ} {seen seen' : Std.HashSet σ}

/-- One level with a number of workers. They may have the nodes in any shares and take turns in
any order. Of several failures any may be reported. -/
inductive StepWith (system : TransitionSystem σ ε) (maxStates : Option Nat) (workers : Nat)
    (s : Explorer σ) (seen : Std.HashSet σ) :
    Loop.Step (Explorer σ × Std.HashSet σ) (Except ε (StateGraph σ)) → Prop
  /-- The last level is empty or was cut short. -/
  | complete (hend : s.frontier = [] ∨ s.graph.truncated = true) :
      StepWith system maxStates workers s seen (.done (.ok s.graph))
  /-- The successors of a node are not known. -/
  | failed {entry : Nat × σ} {e : ε} (hopen : s.graph.truncated = false)
      (hentry : entry ∈ s.frontier) (he : system.successors entry.2 = .error e) :
      StepWith system maxStates workers s seen (.done (.error e))
  /-- The workers have handled the level. -/
  | level {lists : List (List σ)} {shares : List (List Nat)} {crew : Crew σ}
      (hopen : ¬ (s.frontier = [] ∨ s.graph.truncated = true))
      (hlists : (s.frontier.mapM fun entry => system.successors entry.2) = .ok lists)
      (hworkers : shares.length = workers) (hcrew : crew.Handles seen lists shares) :
      StepWith system maxStates workers s seen
        (.more (s.settle maxStates lists crew.collected, crew.seen))

/-- Where an exploration with a number of workers can be after a number of levels. -/
inductive RunWith (system : TransitionSystem σ ε) (maxStates : Option Nat) (workers : Nat) :
    Nat → Loop.Step (Explorer σ × Std.HashSet σ) (Except ε (StateGraph σ)) → Prop
  /-- Only the initial state has been seen. -/
  | start : RunWith system maxStates workers 0
      (.more (.start system.initial, (∅ : Std.HashSet σ).insert system.initial))
  /-- The exploration goes on. -/
  | step {n : Nat} {s : Explorer σ} {seen : Std.HashSet σ}
      {next : Loop.Step (Explorer σ × Std.HashSet σ) (Except ε (StateGraph σ))}
      (hrun : RunWith system maxStates workers n (.more (s, seen)))
      (hstep : StepWith system maxStates workers s seen next) :
      RunWith system maxStates workers (n + 1) next
  /-- The exploration has ended. -/
  | ended {n : Nat} {result : Except ε (StateGraph σ)}
      (hrun : RunWith system maxStates workers n (.done result)) :
      RunWith system maxStates workers (n + 1) (.done result)

/-- Unless states were dropped, those seen are those in the graph. -/
def Tracks (s : Explorer σ) (seen : Std.HashSet σ) : Prop :=
  s.graph.truncated = false → ∀ x, x ∈ seen ↔ x ∈ s.graph.states

/-- The exploration without workers is at the same place. -/
def Agrees (system : TransitionSystem σ ε) (maxStates : Option Nat) (n : Nat) :
    Loop.Step (Explorer σ × Std.HashSet σ) (Except ε (StateGraph σ)) → Prop
  | .more (s, seen) => Invariant system maxStates s ∧ Tracks s seen ∧
      Loop.iterate (step system maxStates) n (.start system.initial) = .more s
  | .done result =>
      Loop.iterate (step system maxStates) n (.start system.initial) = .done result

/-- A level does not depend on the order in which the new states come. -/
theorem settle_eq_of_perm [Std.TransOrd σ] (s : Explorer σ) (maxStates : Option Nat)
    (lists : List (List σ)) {xs ys : List σ} (hperm : xs.Perm ys) (hnodup : xs.Nodup)
    (hfaithful : ∀ a ∈ xs, ∀ b ∈ xs, compare a b = .eq → a = b) :
    s.settle maxStates lists xs = s.settle maxStates lists ys := by
  obtain ⟨graph, frontier, depth⟩ := s
  rw [settle, settle, mergeSort_eq_of_perm hperm hnodup hfaithful]

/-- With workers an exploration ends where it ends without. -/
theorem stepWith_done_iff (h : Invariant system maxStates s) (hknown : system.Known)
    {result : Except ε (StateGraph σ)} :
    StepWith system maxStates workers s seen (.done result) ↔
      step system maxStates s = .done result := by
  rw [h.step_eq hknown]
  constructor
  · intro hstep
    cases hstep with
    | complete hend => rw [if_pos hend]
    | failed _ hentry he =>
      obtain ⟨next, hnext⟩ := hknown _ (h.reachable_frontier hentry)
      rw [he] at hnext
      cases hnext
  · intro hstep
    split at hstep
    · rename_i hend
      cases hstep
      exact .complete hend
    · cases hstep

variable [LawfulBEq σ] [Std.TransOrd σ]

/-- The workers add the level that is added without them. -/
theorem settle_collected (h : Invariant system maxStates s) (hsystem : system.Explorable)
    (hseen : ∀ x, x ∈ seen ↔ x ∈ s.graph.states) {shares : List (List Nat)} {crew : Crew σ}
    (hcrew : crew.Handles seen (s.frontier.map fun entry => system.next entry.2) shares) :
    s.settle maxStates (s.frontier.map fun entry => system.next entry.2) crew.collected =
      s.extend maxStates (s.frontier.map fun entry => system.next entry.2) := by
  have hreachable : ∀ x ∈ crew.collected, system.Reachable x := fun x hx =>
    h.reachable_next hsystem.known ((hcrew.mem_collected x).mp hx).1
  have hindex : ∀ x, x ∈ seen ↔ x ∈ s.graph.index := fun x =>
    (hseen x).trans (StateGraph.mem_index_iff h.indexed).symm
  exact s.settle_eq_of_perm maxStates _ (hcrew.collected_perm_fresh hindex)
    hcrew.invariant.nodup fun a ha b hb =>
      hsystem.faithful a b (hreachable a ha) (hreachable b hb)

/-- The workers have seen the states of the level they added. -/
theorem tracks_extend (h : Invariant system maxStates s) (hsystem : system.Explorable)
    (hcomplete : s.graph.truncated = false) (hseen : ∀ x, x ∈ seen ↔ x ∈ s.graph.states)
    {shares : List (List Nat)} {crew : Crew σ}
    (hcrew : crew.Handles seen (s.frontier.map fun entry => system.next entry.2) shares) :
    Tracks (s.extend maxStates (s.frontier.map fun entry => system.next entry.2)) crew.seen := by
  intro htruncated x
  obtain ⟨kept, dropped, hadv⟩ := h.exists_advance hsystem hcomplete
  have hfound := hadv.found x
  rw [hadv.dropped_eq_nil htruncated, List.append_nil] at hfound
  rw [hcrew.invariant.seen_iff, hcrew.mem_collected, hadv.states, List.mem_append, hseen, hfound]
  refine or_congr_right (and_congr ?_ Iff.rfl)
  simp only [List.mem_flatten, List.mem_map, exists_exists_and_eq_and]

/-- A level with workers is the level without. -/
theorem stepWith_more (h : Invariant system maxStates s) (hsystem : system.Explorable)
    (htracks : Tracks s seen)
    (hstep : StepWith system maxStates workers s seen (.more (t, seen'))) :
    step system maxStates s = .more t ∧ Tracks t seen' := by
  cases hstep with
  | @level lists shares crew hopen hlists hworkers hcrew =>
    have hcomplete := Bool.eq_false_iff.mpr (not_or.mp hopen).2
    rw [h.mapM_successors hsystem.known, Except.ok.injEq] at hlists
    subst hlists
    rw [h.step_eq hsystem.known, if_neg hopen,
      settle_collected h hsystem (htracks hcomplete) hcrew]
    exact ⟨rfl, tracks_extend h hsystem hcomplete (htracks hcomplete) hcrew⟩

/-- Any number of workers can add the level that is added without them. -/
theorem exists_stepWith (h : Invariant system maxStates s) (hsystem : system.Explorable)
    (htracks : Tracks s seen) (hworkers : 0 < workers) (hstep : step system maxStates s = .more t) :
    ∃ seen', StepWith system maxStates workers s seen (.more (t, seen')) := by
  rw [h.step_eq hsystem.known] at hstep
  split at hstep
  · cases hstep
  · rename_i hopen
    cases hstep
    have hcomplete := Bool.eq_false_iff.mpr (not_or.mp hopen).2
    obtain ⟨shares, crew, hlength, hcrew⟩ := Crew.exists_handles seen
      (s.frontier.map fun entry => system.next entry.2) hworkers
    refine ⟨crew.seen, ?_⟩
    rw [← settle_collected h hsystem (htracks hcomplete) hcrew]
    exact .level hopen (h.mapM_successors hsystem.known) hlength hcrew

/-- An exploration with workers is where the exploration without workers is. -/
theorem RunWith.agrees (hsystem : system.Explorable) {n : Nat}
    {place : Loop.Step (Explorer σ × Std.HashSet σ) (Except ε (StateGraph σ))}
    (hrun : RunWith system maxStates workers n place) : Agrees system maxStates n place := by
  induction hrun with
  | start =>
    have hstates : (Explorer.start system.initial).graph.states = [system.initial] := rfl
    refine ⟨invariant_start system maxStates, fun _ x => ?_, rfl⟩
    rw [Std.HashSet.mem_insert, beq_iff_eq, hstates, List.mem_singleton, eq_comm]
    exact or_iff_left Std.HashSet.not_mem_empty
  | @step n s seen next _ hstep ih =>
    obtain ⟨hs, htracks, hiterate⟩ := ih
    match next, hstep with
    | .more (t, seen'), hstep =>
      obtain ⟨hmore, htracks'⟩ := stepWith_more hs hsystem htracks hstep
      exact ⟨hs.step_more hsystem hmore, htracks',
        (Loop.iterate_succ_of_more hiterate).trans hmore⟩
    | .done result, hstep =>
      exact (Loop.iterate_succ_of_more hiterate).trans
        ((stepWith_done_iff hs hsystem.known).mp hstep)
  | ended _ ih => exact Loop.iterate_eq_done_of_le ih (Nat.le_succ _)

/-- Wherever the exploration without workers is, any number of workers can get. -/
theorem exists_runWith (hsystem : system.Explorable) (maxStates : Option Nat)
    (hworkers : 0 < workers) (n : Nat) :
    (∀ s, Loop.iterate (step system maxStates) n (.start system.initial) = .more s →
      ∃ seen, RunWith system maxStates workers n (.more (s, seen))) ∧
    ∀ result, Loop.iterate (step system maxStates) n (.start system.initial) = .done result →
      RunWith system maxStates workers n (.done result) := by
  induction n with
  | zero =>
    refine ⟨fun s hs => ?_, fun result hresult => ?_⟩
    · cases hs
      exact ⟨_, .start⟩
    · cases hresult
  | succ n ih =>
    cases hn : Loop.iterate (step system maxStates) n (.start system.initial) with
    | more t =>
      obtain ⟨seen, hrun⟩ := ih.1 t hn
      obtain ⟨ht, htracks, _⟩ := hrun.agrees hsystem
      rw [Loop.iterate_succ_of_more hn]
      refine ⟨fun s hs => ?_, fun result hresult => ?_⟩
      · obtain ⟨seen', hstep⟩ := exists_stepWith ht hsystem htracks hworkers hs
        exact ⟨seen', hrun.step hstep⟩
      · exact hrun.step ((stepWith_done_iff ht hsystem.known).mpr hresult)
    | done r =>
      rw [Loop.iterate_eq_done_of_le hn (Nat.le_succ n)]
      refine ⟨fun s hs => ?_, fun result hresult => ?_⟩
      · cases hs
      · cases hresult
        exact (ih.2 r hn).ended

end Explorer

/-- Workers make no difference. However the nodes of a level are shared out and whoever's turn
it is, the workers can go on until none is left, and then every successor that had not been seen
has been claimed by one worker, once, and nothing else has. Sorted, these are the same states
for all shares and turns, so the same level is added to any graph. A whole exploration, with
any number of workers, is after each level where the exploration without workers is, and ends
with its graph. -/
theorem explore_worker_independent [BEq σ] [Hashable σ] [Ord σ] [LawfulBEq σ] [Std.TransOrd σ]
    (system : TransitionSystem σ ε) (hsystem : system.Explorable) (maxStates : Option Nat) :
    (∀ (seen : Std.HashSet σ) (lists : List (List σ)) (shares : List (List Nat))
      (turns : List Nat), shares.flatten.Perm (List.range lists.length) →
      ∃ more, ((Crew.start seen lists shares).run (turns ++ more)).Handles seen lists shares) ∧
    (∀ (seen : Std.HashSet σ) (lists : List (List σ)) (shares : List (List Nat)) (crew : Crew σ),
      crew.Handles seen lists shares → crew.Divides seen lists shares ∧
      ((∀ a ∈ lists.flatten, ∀ b ∈ lists.flatten, compare a b = .eq → a = b) →
        ∀ (shares' : List (List Nat)) (crew' : Crew σ), crew'.Handles seen lists shares' →
          (crew.collected.mergeSort fun a b => (compare a b).isLE) =
            (crew'.collected.mergeSort fun a b => (compare a b).isLE) ∧
          ∀ s : Explorer σ, s.settle maxStates lists crew.collected =
            s.settle maxStates lists crew'.collected)) ∧
    ∀ workers, 0 < workers → ∀ n,
      (∀ s, (∃ seen, Explorer.RunWith system maxStates workers n (.more (s, seen))) ↔
        Loop.iterate (Explorer.step system maxStates) n (.start system.initial) = .more s) ∧
      (∀ result, Explorer.RunWith system maxStates workers n (.done result) ↔
        Loop.iterate (Explorer.step system maxStates) n (.start system.initial) = .done result) ∧
      ∀ result rounds, Explorer.RunWith system maxStates workers n (.done result) →
        n ≤ 2 ^ rounds - 1 → system.explore maxStates rounds = result := by
  refine ⟨fun seen lists shares turns hshares => ?_, fun seen lists shares crew hcrew =>
    ⟨hcrew.invariant.divides hcrew.finished hcrew.shared, ?_⟩, fun workers hworkers n => ?_⟩
  · obtain ⟨more, hfinished⟩ := ((Crew.start seen lists shares).run turns).exists_finished
    refine ⟨more, hshares, ⟨turns ++ more, rfl⟩, ?_⟩
    rw [Crew.run, List.foldl_append]
    exact hfinished
  · intro hfaithful shares' crew' hcrew'
    have hperm := hcrew.collected_perm hcrew'
    have hcollected : ∀ a ∈ crew.collected, ∀ b ∈ crew.collected, compare a b = .eq → a = b :=
      fun a ha b hb => hfaithful a ((hcrew.mem_collected a).mp ha).1 b
        ((hcrew.mem_collected b).mp hb).1
    exact ⟨mergeSort_eq_of_perm hperm hcrew.invariant.nodup hcollected, fun s =>
      s.settle_eq_of_perm maxStates lists hperm hcrew.invariant.nodup hcollected⟩
  · have hexists := Explorer.exists_runWith hsystem maxStates hworkers n
    refine ⟨fun s => ⟨fun ⟨seen, hrun⟩ => (hrun.agrees hsystem).2.2, hexists.1 s⟩,
      fun result => ⟨fun hrun => hrun.agrees hsystem, hexists.2 result⟩, ?_⟩
    intro result rounds hrun hrounds
    exact TransitionSystem.explore_eq (hrun.agrees hsystem) hrounds

/-- At the second level of the crossing two workers both come to the state 3. It is claimed by
the one that is there first, and the level is the same either way. Two workers also get through
all levels of the crossing, to the graph without workers. -/
theorem crossing_worker_independent :
    (∃ first second : Crew (Fin 4),
      first.Handles (.ofList [0, 1, 2]) [[3, 0], [3]] [[0], [1]] ∧
      second.Handles (.ofList [0, 1, 2]) [[3, 0], [3]] [[0], [1]] ∧
      first.claims [0] = [3] ∧ first.claims [1] = [] ∧
      second.claims [0] = [] ∧ second.claims [1] = [3] ∧
      second.Divides (.ofList [0, 1, 2]) [[3, 0], [3]] [[0], [1]] ∧
      ∀ s : Explorer (Fin 4), s.settle none [[3, 0], [3]] first.collected =
        s.settle none [[3, 0], [3]] second.collected) ∧
    ∃ graph, Explorer.RunWith crossing none 2 5 (.done (.ok graph)) ∧
      crossing.explore none 3 = .ok graph := by
  obtain ⟨_, hlevel, hruns⟩ := explore_worker_independent crossing crossing_explorable none
  have hhandles : ∀ (turns : List Nat) (crew : Crew (Fin 4)),
      (Crew.start (.ofList [0, 1, 2]) [[3, 0], [3]] [[0], [1]]).run turns = crew →
      crew.queues = [[], []] →
      crew.Handles (.ofList [0, 1, 2]) [[3, 0], [3]] [[0], [1]] := by
    intro turns crew hrun hqueues
    refine ⟨by decide, ⟨turns, hrun⟩, fun queue hqueue => ?_⟩
    rw [hqueues] at hqueue
    simpa using hqueue
  refine ⟨?_, ?_⟩
  · have hfirst := hhandles [0, 1, 1, 0, 0] _ rfl (by simp [Crew.start, Crew.run, Crew.turn])
    have hsecond := hhandles [1, 0, 0, 0, 1] _ rfl (by simp [Crew.start, Crew.run, Crew.turn])
    have hfaithful : ∀ a ∈ [[3, 0], [3]].flatten, ∀ b ∈ [[3, 0], [3]].flatten,
        compare a b = .eq → a = (b : Fin 4) := fun _ _ _ _ => Std.LawfulEqOrd.eq_of_compare
    refine ⟨_, _, hfirst, hsecond, ?_, ?_, ?_, ?_, (hlevel _ _ _ _ hsecond).1,
      ((hlevel _ _ _ _ hfirst).2 hfaithful _ _ hsecond).2⟩ <;>
    simp [Crew.claims, Crew.claimedAt, Crew.start, Crew.run, Crew.turn]
  · have hbound : {s | crossing.Reachable s}.encard ≤ (4 : Nat) :=
      (Set.encard_le_encard (Set.subset_univ _)).trans (by simp)
    obtain ⟨graph, _, hend⟩ := exists_exact_end crossing_explorable hbound
    obtain ⟨_, hdone, hexplore⟩ := hruns 2 (by decide) 5
    have hrun := (hdone (.ok graph)).mpr hend
    exact ⟨graph, hrun, hexplore _ 3 hrun (by decide)⟩

end TapeReach
