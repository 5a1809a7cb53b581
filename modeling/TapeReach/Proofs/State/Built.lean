import TapeReach.Proofs.State.Canonical

/-!
# States built by operations

A state is built when it comes from the initial state or from a list of cells
by jumps, moves, writes and reads, whatever their arguments. Every built state
is canonical, so it is the state with the same position, pointer and budget
made afresh from its cells in any order. Two built states are the same
exactly when nothing that can be looked up tells them apart.
-/

namespace TapeReach

section Tables

variable {α : Type} {entries entries' : List (Nat × α)} {position : Nat} {value : α}

/-- What a table holds after many insertions was there before or was inserted. -/
theorem mem_of_getElem?_insertMany {table : Std.ExtTreeMap Nat α}
    (h : (table.insertMany entries)[position]? = some value) :
    table[position]? = some value ∨ (position, value) ∈ entries := by
  induction entries generalizing table with
  | nil => exact .inl h
  | cons entry entries ih =>
    rw [Std.ExtTreeMap.insertMany_cons] at h
    rcases ih h with hinsert | hmem
    · rw [Std.ExtTreeMap.getElem?_insert] at hinsert
      split at hinsert
      · rename_i hp
        rw [Option.some.injEq] at hinsert
        rw [← Std.LawfulEqCmp.compare_eq_iff_eq.mp hp, ← hinsert]
        exact .inr List.mem_cons_self
      · exact .inl hinsert
    · exact .inr (List.mem_cons_of_mem _ hmem)

/-- Everything in a table made from a list is on the list. -/
theorem mem_of_getElem?_ofList
    (h : (Std.ExtTreeMap.ofList entries)[position]? = some value) :
    (position, value) ∈ entries := by
  rw [Std.ExtTreeMap.ofList_eq_insertMany_empty] at h
  rcases mem_of_getElem?_insertMany h with hempty | hmem
  · rw [Std.ExtTreeMap.getElem?_empty] at hempty
    cases hempty
  · exact hmem

/-- A table made from a list with one entry for each position holds what is on the list. -/
theorem getElem?_ofList_eq_some (hnodup : (entries.map Prod.fst).Nodup) :
    (Std.ExtTreeMap.ofList entries)[position]? = some value ↔ (position, value) ∈ entries := by
  refine ⟨mem_of_getElem?_ofList, fun hmem => ?_⟩
  refine Std.ExtTreeMap.getElem?_ofList_of_mem Std.compare_self ?_ hmem
  refine (List.pairwise_map.mp hnodup).imp fun hne heq => ?_
  exact hne (Std.LawfulEqCmp.compare_eq_iff_eq.mp heq)

/-- The order of a list with one entry for each position does not matter to its table. -/
theorem ofList_perm (hnodup : (entries.map Prod.fst).Nodup) (h : entries.Perm entries') :
    (Std.ExtTreeMap.ofList entries : Std.ExtTreeMap Nat α) = .ofList entries' := by
  have hnodup' : (entries'.map Prod.fst).Nodup := (h.map Prod.fst).nodup_iff.mp hnodup
  refine Std.ExtTreeMap.ext_getElem? fun {p} => Option.ext fun v => ?_
  rw [getElem?_ofList_eq_some hnodup, getElem?_ofList_eq_some hnodup', h.mem_iff]

/-- The list of a table has one entry for each position. -/
theorem nodup_keys_toList (table : Std.ExtTreeMap Nat α) :
    (table.toList.map Prod.fst).Nodup := by
  refine List.pairwise_map.mpr (Std.ExtTreeMap.distinct_keys_toList.imp fun hne heq => ?_)
  exact hne (Std.LawfulEqCmp.compare_eq_iff_eq.mpr heq)

/-- A table is made again from its list. -/
theorem ofList_toList (table : Std.ExtTreeMap Nat α) : .ofList table.toList = table := by
  refine Std.ExtTreeMap.ext_getElem? fun {p} => Option.ext fun v => ?_
  rw [getElem?_ofList_eq_some (nodup_keys_toList table),
    Std.ExtTreeMap.mem_toList_iff_getElem?_eq_some]

end Tables

namespace State

/-- The states that the operations build. -/
inductive Built : State → Prop
  | initial (readsLeft : Option Nat) : Built (initial readsLeft)
  | ofCells (pc pointer : Nat) (cells : List (Nat × UInt8)) (readsLeft : Option Nat) :
      Built (ofCells pc pointer cells readsLeft)
  | jump {s : State} (hs : Built s) (pc : Nat) : Built (s.jump pc)
  | move {s : State} (hs : Built s) (pc pointer : Nat) : Built (s.move pc pointer)
  | write {s : State} (hs : Built s) (pc : Nat) (value : UInt8) : Built (s.write pc value)
  | receive {s : State} (hs : Built s) (pc : Nat) (value : UInt8) : Built (s.receive pc value)

/-- A state made from a list of cells is canonical. -/
theorem canonical_ofCells (pc pointer : Nat) (cells : List (Nat × UInt8))
    (readsLeft : Option Nat) : (ofCells pc pointer cells readsLeft).Canonical where
  digest := rfl
  fingerprint := rfl
  nonzero p hzero := by
    have hmem := (List.mem_filter.mp (mem_of_getElem?_ofList hzero)).2
    simp at hmem

variable {s t : State}

/-- Every state that the operations build is canonical. -/
theorem Built.canonical (h : s.Built) : s.Canonical := by
  induction h with
  | initial readsLeft => exact canonical_initial readsLeft
  | ofCells pc pointer cells readsLeft => exact canonical_ofCells pc pointer cells readsLeft
  | jump _ pc ih => exact ih.jump pc
  | move _ pc pointer ih => exact ih.move pc pointer
  | write _ pc value ih => exact ih.store pc value _
  | receive _ pc value ih => exact ih.store pc value _

/-- Zero cells on a list do not matter. -/
theorem ofCells_insert_zero (pc pointer position : Nat) (before after : List (Nat × UInt8))
    (readsLeft : Option Nat) :
    ofCells pc pointer (before ++ (position, 0) :: after) readsLeft =
      ofCells pc pointer (before ++ after) readsLeft := by
  simp only [ofCells, List.filter_append, List.filter_cons, ne_eq, not_true, decide_false,
    Bool.false_eq_true, if_false]

/-- The order of a list with one entry for each cell does not matter. -/
theorem ofCells_perm {cells cells' : List (Nat × UInt8)} (hnodup : (cells.map Prod.fst).Nodup)
    (h : cells.Perm cells') (pc pointer : Nat) (readsLeft : Option Nat) :
    ofCells pc pointer cells readsLeft = ofCells pc pointer cells' readsLeft := by
  have hfilter : ((cells.filter fun entry => entry.2 ≠ 0).map Prod.fst).Nodup :=
    hnodup.sublist (List.filter_sublist.map Prod.fst)
  simp only [ofCells, ofList_perm hfilter (h.filter _)]

/-- A canonical state is made afresh from its cells. -/
theorem Canonical.eq_ofCells (h : s.Canonical) :
    s = ofCells s.pc s.pointer s.cellList s.readsLeft := by
  refine h.ext (canonical_ofCells _ _ _ _) rfl rfl rfl fun p => ?_
  have hfilter : s.cellList.filter (fun entry => entry.2 ≠ 0) = s.cellList := by
    refine List.filter_eq_self.mpr fun ⟨q, value⟩ hmem => ?_
    have hq := Std.ExtTreeMap.mem_toList_iff_getElem?_eq_some.mp hmem
    have hne : value ≠ 0 := fun hzero => h.nonzero q (hzero ▸ hq)
    exact decide_eq_true hne
  simp only [cell, ofCells, ofParts, hfilter]
  rw [cellList, ofList_toList]

/-- Canonical states are the same exactly when nothing that can be looked up differs. -/
theorem Canonical.beq_iff (hs : s.Canonical) (ht : t.Canonical) :
    (s == t) = true ↔ s.pc = t.pc ∧ s.pointer = t.pointer ∧ s.readsLeft = t.readsLeft ∧
      ∀ p, s.cell p = t.cell p := by
  rw [beq_iff_eq]
  constructor
  · rintro rfl
    exact ⟨rfl, rfl, rfl, fun _ => rfl⟩
  · rintro ⟨hpc, hpointer, hreads, hcells⟩
    exact hs.ext ht hpc hpointer hreads hcells

/-- What the operations keep true of every state they build. No zero cell is stored; the
digest is that of the stored cells in any order, and the state is made afresh from them;
and states are the same exactly when position, pointer, budget and the value of every
cell agree. So zero cells and the order of the cells do not matter to a new state. -/
theorem built_representation (hs : s.Built) :
    (∀ p : Nat, s.cells[p]? ≠ some 0) ∧
    (∀ cells, cells.Perm s.cellList →
      s.digest = Digest.memory cells ∧ s = ofCells s.pc s.pointer cells s.readsLeft) ∧
    (∀ t : State, t.Built → ((s == t) = true ↔
      s.pc = t.pc ∧ s.pointer = t.pointer ∧ s.readsLeft = t.readsLeft ∧
        ∀ p, s.cell p = t.cell p)) ∧
    (∀ pc pointer position before after readsLeft,
      ofCells pc pointer (before ++ (position, 0) :: after) readsLeft =
        ofCells pc pointer (before ++ after) readsLeft) ∧
    (∀ pc pointer cells cells' readsLeft, (cells.map Prod.fst).Nodup → cells.Perm cells' →
      ofCells pc pointer cells readsLeft = ofCells pc pointer cells' readsLeft) := by
  have h := hs.canonical
  refine ⟨h.nonzero, fun cells hperm => ⟨?_, ?_⟩, fun t ht => h.beq_iff ht.canonical,
    ofCells_insert_zero, fun pc pointer _ _ readsLeft hnodup hperm =>
      ofCells_perm hnodup hperm pc pointer readsLeft⟩
  · rw [h.digest, Digest.memory_perm hperm, cellList]
  · have hnodup := (hperm.map Prod.fst).nodup_iff.mpr (nodup_keys_toList s.cells)
    rw [ofCells_perm hnodup hperm]
    exact h.eq_ofCells

/-- Four operations that write, move, read and write again. -/
def rewritten : State :=
  ((((initial (some 2)).write 1 4).move 2 9).receive 3 200).write 4 201

/-- A state that was written to twice is the one made from its two cells. -/
theorem rewritten_eq_fresh :
    rewritten.Built ∧ (rewritten == ofCells 4 9 [(9, 201), (5, 0), (0, 4)] (some 1)) = true ∧
      rewritten = ofCells 4 9 rewritten.cellList.reverse (some 1) := by
  have hbuilt : rewritten.Built := ((((Built.initial _).write _ _).move _ _).receive _ _).write _ _
  obtain ⟨_, hcells, heq, _, _⟩ := built_representation hbuilt
  have hpc : rewritten.pc = 4 := rfl
  have hpointer : rewritten.pointer = 9 := rfl
  have hreads : rewritten.readsLeft = some 1 := rfl
  have hvalues : ∀ p, rewritten.cell p =
      (ofCells 4 9 [(9, 201), (5, 0), (0, 4)] (some 1)).cell p := by
    intro p
    simp only [rewritten, write, receive, cell_store]
    by_cases hnine : p = 9
    · subst hnine
      rfl
    · have hne : ¬ 9 = p := Ne.symm hnine
      by_cases hzero : 0 = p <;>
        simp [move, initial, ofParts, store, ofCells, cell, Std.ExtTreeMap.ofList_cons, hnine,
          hne, hzero]
  exact ⟨hbuilt, (heq _ (.ofCells _ _ _ _)).mpr ⟨hpc, hpointer, hreads, hvalues⟩,
    (hcells _ (List.reverse_perm _)).2⟩

end State

end TapeReach
