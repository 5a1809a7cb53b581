import Mathlib.Data.List.Nodup
import Mathlib.Data.List.Perm.Basic
import TapeReach.Proofs.Graph.Level

/-!
# Workers at a level

The nodes of a level can be handled by several workers at once. Each of them
takes the nodes of its share one after the other and goes through their
successors in order. A successor is claimed by entering it in a set that the
workers share; it is not claimed if it is there already. Looking and entering
are one action, the set is all that the workers share, and they take their
turns in any order.

Which worker claims a state depends on the turns. That exactly one does, and
that nothing is claimed but the new states, does not.
-/

namespace TapeReach

section Replacing

variable {α β : Type} {xs : List α} {i j : Nat} {x y z : α}

/-- A member of a list in which one was replaced is the new one or an old one. -/
theorem getElem?_set_cases (h : (xs.set i y)[j]? = some z) :
    i = j ∧ y = z ∨ i ≠ j ∧ xs[j]? = some z := by
  rw [List.getElem?_set] at h
  split at h
  · rename_i hij
    split at h
    · exact .inl ⟨hij, Option.some.inj h⟩
    · cases h
  · rename_i hij
    exact .inr ⟨hij, h⟩

/-- Replacing a member replaces its part of the joined lists. -/
theorem flatMap_set_perm (f : α → List β) (h : xs[i]? = some x) (y : α) :
    (f x ++ (xs.set i y).flatMap f).Perm (f y ++ xs.flatMap f) := by
  induction xs generalizing i with
  | nil => cases h
  | cons z xs ih =>
    cases i with
    | zero =>
      rw [List.getElem?_cons_zero, Option.some.injEq] at h
      rw [h, List.set_cons_zero, List.flatMap_cons, List.flatMap_cons]
      exact List.perm_append_comm_assoc _ _ _
    | succ i =>
      rw [List.set_cons_succ, List.flatMap_cons, List.flatMap_cons]
      calc f x ++ (f z ++ (xs.set i y).flatMap f)
          |>.Perm (f z ++ (f x ++ (xs.set i y).flatMap f)) := List.perm_append_comm_assoc _ _ _
        _ |>.Perm (f z ++ (f y ++ xs.flatMap f)) := (ih h).append_left (f z)
        _ |>.Perm (f y ++ (f z ++ xs.flatMap f)) := List.perm_append_comm_assoc _ _ _

end Replacing

/-- A node of the level in the hands of a worker. -/
structure Task (σ : Type) where
  /-- The successors that are left to go through. -/
  pending : List σ
  /-- The successors that were claimed, in order. -/
  claimed : List σ := []

/-- Workers that handle a level. -/
structure Crew (σ : Type) [BEq σ] [Hashable σ] where
  /-- The states that have been seen, shared by the workers. -/
  seen : Std.HashSet σ
  /-- The nodes of the level, in order. -/
  tasks : List (Task σ)
  /-- The places of the nodes that each worker has left, that of its current node first. -/
  queues : List (List Nat)

namespace Crew

variable {σ : Type} [BEq σ] [Hashable σ]

/-- The workers before the first turn: each has a share of the nodes, given by their places. -/
def start (seen : Std.HashSet σ) (lists : List (List σ)) (shares : List (List Nat)) : Crew σ :=
  ⟨seen, lists.map fun next => { pending := next }, shares⟩

/-- The turn of a worker. It claims the next successor of its current node unless that has
been seen. With no successor left it goes on to its next node. -/
def turn (crew : Crew σ) (worker : Nat) : Crew σ :=
  match crew.queues[worker]? with
  | some (place :: rest) =>
    match crew.tasks[place]? with
    | some ⟨x :: pending, claimed⟩ =>
      if x ∈ crew.seen then { crew with tasks := crew.tasks.set place ⟨pending, claimed⟩ }
      else
        { crew with
          seen := crew.seen.insert x
          tasks := crew.tasks.set place ⟨pending, claimed ++ [x]⟩ }
    | _ => { crew with queues := crew.queues.set worker rest }
  | _ => crew

/-- The workers after some turns. -/
def run (crew : Crew σ) (turns : List Nat) : Crew σ := turns.foldl turn crew

/-- No worker has a node left. -/
def Finished (crew : Crew σ) : Prop := ∀ queue ∈ crew.queues, queue = []

/-- The successors that are left to go through. -/
def pending (crew : Crew σ) : List σ := crew.tasks.flatMap Task.pending

/-- The states that were claimed, in the order of the nodes. -/
def collected (crew : Crew σ) : List σ := crew.tasks.flatMap Task.claimed

/-- The states that were claimed at a place. -/
def claimedAt (crew : Crew σ) (place : Nat) : List σ :=
  ((crew.tasks[place]?).map Task.claimed).getD []

/-- The states that the worker with a given share claimed. -/
def claims (crew : Crew σ) (share : List Nat) : List σ := share.flatMap crew.claimedAt

/-- The new states of a level are divided among the workers. -/
structure Divides (crew : Crew σ) (seen : Std.HashSet σ) (lists : List (List σ))
    (shares : List (List Nat)) : Prop where
  /-- Every successor that has not been seen is claimed by one worker and no other. -/
  one : ∀ x ∈ lists.flatten, x ∉ seen →
    ∃! i : Fin shares.length, x ∈ crew.claims (shares.get i)
  /-- No worker claims a state twice. -/
  once : ∀ share ∈ shares, (crew.claims share).Nodup
  /-- A worker claims nothing but successors of its own nodes that have not been seen. -/
  only : ∀ share ∈ shares, ∀ x ∈ crew.claims share,
    x ∉ seen ∧ ∃ place ∈ share, ∃ next, lists[place]? = some next ∧ x ∈ next

section Turns

variable {crew crew' : Crew σ}

/-- What a turn can do. -/
inductive Turn (crew : Crew σ) : Crew σ → Prop
  /-- The worker has no node left. -/
  | idle : Turn crew crew
  /-- The worker has gone through all successors of its current node. -/
  | leave {worker place : Nat} {rest : List Nat}
      (hqueue : crew.queues[worker]? = some (place :: rest))
      (hdone : ∀ task, crew.tasks[place]? = some task → task.pending = []) :
      Turn crew { crew with queues := crew.queues.set worker rest }
  /-- The next successor has been seen. -/
  | skip {place : Nat} {x : σ} {pending claimed : List σ}
      (htask : crew.tasks[place]? = some ⟨x :: pending, claimed⟩) (hx : x ∈ crew.seen) :
      Turn crew { crew with tasks := crew.tasks.set place ⟨pending, claimed⟩ }
  /-- The next successor is new. -/
  | claim {place : Nat} {x : σ} {pending claimed : List σ}
      (htask : crew.tasks[place]? = some ⟨x :: pending, claimed⟩) (hx : x ∉ crew.seen) :
      Turn crew
        { crew with
          seen := crew.seen.insert x
          tasks := crew.tasks.set place ⟨pending, claimed ++ [x]⟩ }

/-- A turn does one of the four things. -/
theorem turn_cases (crew : Crew σ) (worker : Nat) : Turn crew (crew.turn worker) := by
  unfold turn
  split
  · rename_i place rest hqueue
    split
    · rename_i x pending claimed htask
      split
      · rename_i hx
        exact .skip htask hx
      · rename_i hx
        exact .claim htask hx
    · rename_i hnone
      refine .leave hqueue fun task htask => ?_
      obtain ⟨pending, claimed⟩ := task
      cases pending with
      | nil => rfl
      | cons x pending => exact absurd htask (hnone x pending claimed)
  · exact .idle

/-- Going through a successor takes it from those that are left. -/
theorem pending_set {place : Nat} {x : σ} {pending claimed : List σ}
    (htask : crew.tasks[place]? = some ⟨x :: pending, claimed⟩) (seen : Std.HashSet σ)
    (claimed' : List σ) :
    crew.pending.Perm (x :: Crew.pending
      { crew with seen, tasks := crew.tasks.set place ⟨pending, claimed'⟩ }) := by
  have hset := flatMap_set_perm Task.pending htask ⟨pending, claimed'⟩
  have hmiddle := List.perm_middle.trans hset
  exact ((List.perm_append_left_iff pending).mp hmiddle).symm

/-- A claim comes to the states that were claimed, and nothing else changes there. -/
theorem collected_set {place : Nat} {x : σ} {pending claimed : List σ}
    (htask : crew.tasks[place]? = some ⟨x :: pending, claimed⟩) (seen : Std.HashSet σ)
    (new : List σ) :
    (collected { crew with seen, tasks := crew.tasks.set place ⟨pending, claimed ++ new⟩ }).Perm
      (new ++ crew.collected) := by
  have hset := flatMap_set_perm Task.claimed htask ⟨pending, claimed ++ new⟩
  rw [List.append_assoc] at hset
  exact (List.perm_append_left_iff claimed).mp hset

end Turns

section Invariant

variable {crew crew' : Crew σ} {seen : Std.HashSet σ} {lists : List (List σ)}

/-- What holds between two turns at a level with the given successors, when the given states
had been seen before it. -/
structure Invariant (seen : Std.HashSet σ) (lists : List (List σ)) (crew : Crew σ) : Prop where
  /-- There is a task for each node. -/
  length : crew.tasks.length = lists.length
  /-- The states of a task are successors of its node. -/
  own : ∀ (place : Nat) (task : Task σ), crew.tasks[place]? = some task →
    ∃ next, lists[place]? = some next ∧ ∀ x, x ∈ task.pending ∨ x ∈ task.claimed → x ∈ next
  /-- A state has been seen before the level or was claimed. -/
  seen_iff : ∀ x, x ∈ crew.seen ↔ x ∈ seen ∨ x ∈ crew.collected
  /-- No state that had been seen was claimed. -/
  new : ∀ x ∈ crew.collected, x ∉ seen
  /-- No state was claimed twice. -/
  nodup : crew.collected.Nodup
  /-- A successor is left to go through or has been seen. -/
  covered : ∀ x ∈ lists.flatten, x ∈ crew.pending ∨ x ∈ crew.seen
  /-- A node with a successor left is left to a worker. -/
  queued : ∀ (place : Nat) (task : Task σ), crew.tasks[place]? = some task → task.pending ≠ [] →
    ∃ queue ∈ crew.queues, place ∈ queue

/-- The invariant holds when each node is in a share. -/
theorem invariant_start {shares : List (List Nat)}
    (hshares : shares.flatten.Perm (List.range lists.length)) :
    Invariant seen lists (start seen lists shares) := by
  have htask : ∀ (place : Nat) (task : Task σ), (start seen lists shares).tasks[place]? = some task →
      ∃ next, lists[place]? = some next ∧ task = { pending := next } := by
    intro place task htask
    simp only [start, List.getElem?_map, Option.map_eq_some_iff] at htask
    obtain ⟨next, hnext, rfl⟩ := htask
    exact ⟨next, hnext, rfl⟩
  have hcollected : (start seen lists shares).collected = [] := by
    simp [collected, start]
  have hpending : (start seen lists shares).pending = lists.flatten := by
    simp [pending, start, List.flatMap_map]
  refine ⟨?_, fun place task h => ?_, fun x => ?_, fun x hx => ?_, ?_, fun x hx => ?_,
    fun place task h _ => ?_⟩
  · simp [start]
  · obtain ⟨next, hnext, rfl⟩ := htask place task h
    exact ⟨next, hnext, fun x hx => hx.resolve_right List.not_mem_nil⟩
  · rw [hcollected]
    simp [start]
  · rw [hcollected] at hx
    cases hx
  · rw [hcollected]
    exact List.nodup_nil
  · rw [hpending]
    exact .inl hx
  · obtain ⟨next, hnext, _⟩ := htask place task h
    have hlt := (List.getElem?_eq_some_iff.mp hnext).1
    have hmem := hshares.mem_iff.mpr (List.mem_range.mpr hlt)
    exact List.mem_flatten.mp hmem

/-- Going through a successor keeps each task at its node. -/
theorem Invariant.own_set (h : Invariant seen lists crew) {place : Nat} {x : σ}
    {pending claimed claimed' : List σ}
    (htask : crew.tasks[place]? = some ⟨x :: pending, claimed⟩)
    (hclaimed : ∀ y ∈ claimed', y ∈ claimed ∨ y = x) (p : Nat) (task : Task σ)
    (hset : (crew.tasks.set place ⟨pending, claimed'⟩)[p]? = some task) :
    ∃ next, lists[p]? = some next ∧ ∀ y, y ∈ task.pending ∨ y ∈ task.claimed → y ∈ next := by
  rcases getElem?_set_cases hset with ⟨rfl, rfl⟩ | ⟨_, hold⟩
  · obtain ⟨next, hnext, hmem⟩ := h.own place _ htask
    refine ⟨next, hnext, fun y hy => hmem y ?_⟩
    rcases hy with hy | hy
    · exact .inl (List.mem_cons_of_mem x hy)
    · rcases hclaimed y hy with hy | rfl
      · exact .inr hy
      · exact .inl List.mem_cons_self
  · exact h.own p task hold

/-- Going through a successor leaves the nodes with the workers. -/
theorem Invariant.queued_set (h : Invariant seen lists crew) {place : Nat} {x : σ}
    {pending claimed claimed' : List σ}
    (htask : crew.tasks[place]? = some ⟨x :: pending, claimed⟩) (p : Nat) (task : Task σ)
    (hset : (crew.tasks.set place ⟨pending, claimed'⟩)[p]? = some task)
    (hne : task.pending ≠ []) : ∃ queue ∈ crew.queues, p ∈ queue := by
  rcases getElem?_set_cases hset with ⟨rfl, _⟩ | ⟨_, hold⟩
  · exact h.queued place _ htask (List.cons_ne_nil x pending)
  · exact h.queued p task hold hne

/-- A successor that is gone through is the only one that is no longer left. -/
theorem Invariant.covered_set (h : Invariant seen lists crew) {place : Nat} {x : σ}
    {pending claimed : List σ} (htask : crew.tasks[place]? = some ⟨x :: pending, claimed⟩)
    (seen' : Std.HashSet σ) (claimed' : List σ) {y : σ} (hy : y ∈ lists.flatten) :
    y ∈ Crew.pending
        { crew with seen := seen', tasks := crew.tasks.set place ⟨pending, claimed'⟩ } ∨
      y = x ∨ y ∈ crew.seen := by
  have hpending := pending_set htask seen' claimed'
  rcases h.covered y hy with hleft | hseen
  · rcases List.mem_cons.mp (hpending.mem_iff.mp hleft) with hx | hleft
    · exact .inr (.inl hx)
    · exact .inl hleft
  · exact .inr (.inr hseen)

/-- A worker leaves a node only when no successor is left there. -/
theorem Invariant.queued_leave (h : Invariant seen lists crew) {worker place : Nat}
    {rest : List Nat} (hqueue : crew.queues[worker]? = some (place :: rest))
    (hdone : ∀ task, crew.tasks[place]? = some task → task.pending = []) (p : Nat)
    (task : Task σ) (htask : crew.tasks[p]? = some task) (hne : task.pending ≠ []) :
    ∃ queue ∈ crew.queues.set worker rest, p ∈ queue := by
  obtain ⟨queue, hmem, hp⟩ := h.queued p task htask hne
  obtain ⟨i, hi⟩ := List.mem_iff_getElem?.mp hmem
  have hlt := (List.getElem?_eq_some_iff.mp hqueue).1
  by_cases hworker : worker = i
  · subst hworker
    rw [hqueue, Option.some.injEq] at hi
    subst hi
    rcases List.mem_cons.mp hp with rfl | hp
    · exact absurd (hdone task htask) hne
    · exact ⟨rest, List.mem_set hlt rest, hp⟩
  · have hkept : (crew.queues.set worker rest)[i]? = some queue := by
      rw [List.getElem?_set_ne hworker, hi]
    exact ⟨queue, List.mem_of_getElem? hkept, hp⟩

variable [LawfulBEq σ]

/-- Every turn keeps the invariant. -/
theorem Turn.invariant (h : Invariant seen lists crew) (hturn : Turn crew crew') :
    Invariant seen lists crew' := by
  cases hturn with
  | idle => exact h
  | leave hqueue hdone => exact { h with queued := h.queued_leave hqueue hdone }
  | @skip place x pending claimed htask hx =>
    have hcollected := collected_set htask crew.seen []
    rw [List.append_nil, List.nil_append] at hcollected
    refine ⟨?_, h.own_set htask fun y hy => .inl hy, fun y => ?_, fun y hy => ?_, ?_,
      fun y hy => ?_, h.queued_set htask⟩
    · rw [List.length_set, h.length]
    · exact (h.seen_iff y).trans (or_congr_right hcollected.mem_iff.symm)
    · exact h.new y (hcollected.mem_iff.mp hy)
    · exact hcollected.nodup_iff.mpr h.nodup
    · rcases h.covered_set htask crew.seen claimed hy with hleft | rfl | hseen
      · exact .inl hleft
      · exact .inr hx
      · exact .inr hseen
  | @claim place x pending claimed htask hx =>
    have hcollected := collected_set htask (crew.seen.insert x) [x]
    rw [List.singleton_append] at hcollected
    obtain ⟨hold, hfree⟩ := not_or.mp fun hor => hx ((h.seen_iff x).mpr hor)
    refine ⟨?_, h.own_set htask fun y hy => ?_, fun y => ?_, fun y hy => ?_, ?_, fun y hy => ?_,
      h.queued_set htask⟩
    · rw [List.length_set, h.length]
    · rcases List.mem_append.mp hy with hy | hy
      · exact .inl hy
      · exact .inr (List.mem_singleton.mp hy)
    · rw [Std.HashSet.mem_insert, beq_iff_eq, h.seen_iff, hcollected.mem_iff, List.mem_cons,
        or_left_comm, eq_comm]
    · rcases List.mem_cons.mp (hcollected.mem_iff.mp hy) with rfl | hy
      · exact hold
      · exact h.new y hy
    · exact hcollected.nodup_iff.mpr (List.nodup_cons.mpr ⟨hfree, h.nodup⟩)
    · rcases h.covered_set htask (crew.seen.insert x) (claimed ++ [x]) hy with
        hleft | rfl | hseen
      · exact .inl hleft
      · exact .inr Std.HashSet.mem_insert_self
      · exact .inr (Std.HashSet.mem_insert.mpr (.inr hseen))

/-- Any turns keep the invariant. -/
theorem Invariant.run (h : Invariant seen lists crew) (turns : List Nat) :
    Invariant seen lists (crew.run turns) := by
  induction turns generalizing crew with
  | nil => exact h
  | cons worker turns ih => exact ih ((crew.turn_cases worker).invariant h)

end Invariant

section Results

variable {crew : Crew σ} {seen : Std.HashSet σ} {lists : List (List σ)} {shares : List (List Nat)}

/-- A state was claimed at a place if it was claimed by the task there. -/
theorem mem_claimedAt {place : Nat} {x : σ} :
    x ∈ crew.claimedAt place ↔ ∃ task, crew.tasks[place]? = some task ∧ x ∈ task.claimed := by
  unfold claimedAt
  cases crew.tasks[place]? with
  | none => simp
  | some task => simp

/-- All places together hold the states that were claimed. -/
theorem claims_range (crew : Crew σ) :
    crew.claims (List.range crew.tasks.length) = crew.collected := by
  have hmap : (List.range crew.tasks.length).map crew.claimedAt =
      crew.tasks.map Task.claimed := by
    refine List.ext_getElem (by simp) fun i hi _ => ?_
    simp only [List.length_map, List.length_range] at hi
    simp [claimedAt, hi]
  rw [claims, collected, List.flatMap_def, List.flatMap_def, hmap]

/-- When the workers have finished, no successor is left. -/
theorem Invariant.pending_eq_nil (h : Invariant seen lists crew) (hfinished : crew.Finished) :
    crew.pending = [] := by
  refine List.flatMap_eq_nil_iff.mpr fun task hmem => ?_
  obtain ⟨place, htask⟩ := List.mem_iff_getElem?.mp hmem
  by_contra hne
  obtain ⟨queue, hqueue, hplace⟩ := h.queued place task htask hne
  rw [hfinished queue hqueue] at hplace
  cases hplace

/-- When the workers have finished, the states that were claimed are the successors that had
not been seen. -/
theorem Invariant.mem_collected (h : Invariant seen lists crew) (hfinished : crew.Finished)
    (x : σ) : x ∈ crew.collected ↔ x ∈ lists.flatten ∧ x ∉ seen := by
  constructor
  · intro hx
    refine ⟨?_, h.new x hx⟩
    obtain ⟨task, hmem, hclaimed⟩ := List.mem_flatMap.mp hx
    obtain ⟨place, htask⟩ := List.mem_iff_getElem?.mp hmem
    obtain ⟨next, hnext, hown⟩ := h.own place task htask
    exact List.mem_flatten.mpr ⟨next, List.mem_of_getElem? hnext, hown x (.inr hclaimed)⟩
  · rintro ⟨hx, hnew⟩
    have hcovered := h.covered x hx
    rw [h.pending_eq_nil hfinished, h.seen_iff] at hcovered
    exact (hcovered.resolve_left List.not_mem_nil).resolve_left hnew

/-- The workers together claim what is collected. -/
theorem Invariant.claims_perm (h : Invariant seen lists crew)
    (hshares : shares.flatten.Perm (List.range lists.length)) :
    (shares.flatMap crew.claims).Perm crew.collected := by
  have hflatten : shares.flatMap crew.claims = crew.claims shares.flatten := by
    rw [claims, ← List.flatMap_id, List.flatMap_assoc]
    rfl
  rw [hflatten, ← claims_range, h.length]
  exact hshares.flatMap_right _

/-- When the workers have finished, they have divided the new states among them. -/
theorem Invariant.divides (h : Invariant seen lists crew) (hfinished : crew.Finished)
    (hshares : shares.flatten.Perm (List.range lists.length)) :
    crew.Divides seen lists shares := by
  have hperm := h.claims_perm hshares
  obtain ⟨hnodup, hdisjoint⟩ := List.nodup_flatMap.mp (hperm.nodup_iff.mpr h.nodup)
  refine ⟨fun x hx hnew => ?_, hnodup, fun share hshare x hx => ?_⟩
  · have hmem := hperm.mem_iff.mpr ((h.mem_collected hfinished x).mpr ⟨hx, hnew⟩)
    obtain ⟨share, hshare, hclaim⟩ := List.mem_flatMap.mp hmem
    obtain ⟨i, rfl⟩ := List.get_of_mem hshare
    refine ⟨i, hclaim, fun j hj => ?_⟩
    -- Of two workers with the state, one would have a share in front of the other.
    by_contra hne
    rcases Nat.lt_or_gt_of_ne (Fin.val_ne_of_ne hne) with hlt | hlt
    · exact List.pairwise_iff_get.mp hdisjoint j i hlt hj hclaim
    · exact List.pairwise_iff_get.mp hdisjoint i j hlt hclaim hj
  · have hmem := hperm.mem_iff.mp (List.mem_flatMap.mpr ⟨share, hshare, hx⟩)
    obtain ⟨place, hplace, hclaimed⟩ := List.mem_flatMap.mp hx
    obtain ⟨task, htask, hclaimed⟩ := mem_claimedAt.mp hclaimed
    obtain ⟨next, hnext, hown⟩ := h.own place task htask
    exact ⟨h.new x hmem, place, hplace, next, hnext, hown x (.inr hclaimed)⟩

end Results

section Progress

variable {crew : Crew σ}

/-- How many turns are left: one for each successor and one for each node. -/
def left (crew : Crew σ) : Nat := crew.pending.length + crew.queues.flatten.length

/-- A worker with a node left does one of the turns that are left. -/
theorem left_turn {worker place : Nat} {rest : List Nat}
    (hqueue : crew.queues[worker]? = some (place :: rest)) :
    crew.left = (crew.turn worker).left + 1 := by
  have hleave : (crew.queues.flatten).length = (crew.queues.set worker rest).flatten.length + 1 := by
    have hset := (flatMap_set_perm id hqueue rest).length_eq
    simp only [id_eq, List.length_append, List.length_cons, List.flatMap_id] at hset
    omega
  simp only [turn, hqueue]
  split
  · rename_i x pending claimed htask
    have hpending : ∀ seen claimed', crew.pending.length = (Crew.pending
        { crew with seen, tasks := crew.tasks.set place ⟨pending, claimed'⟩ }).length + 1 :=
      fun seen claimed' => (pending_set htask seen claimed').length_eq
    split
    · rw [left, left, hpending crew.seen claimed, Nat.add_right_comm]
    · rw [left, left, hpending (crew.seen.insert x) (claimed ++ [x]), Nat.add_right_comm]
  · rw [left, left, hleave]
    rfl

/-- Workers that go on with the turns that are left finish. -/
theorem exists_finished (crew : Crew σ) : ∃ turns, (crew.run turns).Finished := by
  induction hn : crew.left generalizing crew with
  | zero =>
    refine ⟨[], fun queue hqueue => ?_⟩
    have hflatten : crew.queues.flatten = [] :=
      List.length_eq_zero_iff.mp (by rw [left] at hn; omega)
    exact List.flatten_eq_nil_iff.mp hflatten queue hqueue
  | succ n ih =>
    by_cases hfinished : crew.Finished
    · exact ⟨[], hfinished⟩
    · simp only [Finished, not_forall] at hfinished
      obtain ⟨queue, hmem, hne⟩ := hfinished
      obtain ⟨worker, hqueue⟩ := List.mem_iff_getElem?.mp hmem
      obtain ⟨place, rest, rfl⟩ := List.exists_cons_of_ne_nil hne
      have hleft := left_turn hqueue
      obtain ⟨turns, hturns⟩ := ih (crew.turn worker) (by omega)
      exact ⟨worker :: turns, hturns⟩

end Progress

end Crew

end TapeReach
