import TapeReach.Proofs.Execution.Simulation
import TapeReach.Proofs.Program.Parsed

/-!
# What a run leaves behind

A trail is a run from the initial state together with the states that it has
left behind. A state by itself tells where a run stands, but not how often it
has read; on a trail the reads can be counted, and the budget of its last
state is the initial one less that count. With what all reachable states have
in common this says what is known of every state on every run of a program
that was read from a text.
-/

namespace TapeReach

namespace TransitionSystem

variable {σ ε : Type} {system : TransitionSystem σ ε}

/-- A run from the initial state that has left the states of the list, in order, and is
now in the state behind it. -/
inductive Trail (system : TransitionSystem σ ε) : List σ → σ → Prop
  | initial : Trail system [] system.initial
  | next {left : List σ} {s t : σ} (hs : Trail system left s) (hst : system.Leads s t) :
      Trail system (left ++ [s]) t

/-- The state at the end of a trail is reachable. -/
theorem Trail.reachable {left : List σ} {s : σ} (h : system.Trail left s) :
    system.Reachable s := by
  induction h with
  | initial => exact .initial
  | next _ hst ih => exact .next ih hst

end TransitionSystem

namespace Program

/-- Whether the next instruction of a state is a read. -/
def readsAt (program : Program) (s : State) : Bool :=
  program.instructionAt? s.pc = some .read

/-- Number of reads that a run has made when it has left these states. -/
def readCount (program : Program) (left : List State) : Nat := left.countP program.readsAt

variable {program : Program} {io : InputModel} {s t : State} {left : List State}

/-- A read takes one from the budget, if it is finite and not used up, and no other
instruction does. -/
theorem Transition.readsLeft_eq (h : Transition program io s t) :
    t.readsLeft = s.readsLeft.map (· - program.readCount [s]) := by
  have hkeep : program.readsAt s = false →
      s.readsLeft = s.readsLeft.map (· - program.readCount [s]) := by
    intro hs
    simp only [readCount, List.countP_singleton, hs, Bool.false_eq_true, if_false, Nat.sub_zero,
      Option.map_id']
  cases h with
  | left hi | right hi | increment hi | decrement hi | write hi =>
    exact hkeep (by simp only [readsAt, hi, Option.some.injEq, reduceCtorEq, decide_false])
  | read hi byte _ =>
    have hs : program.readsAt s = true := by simp only [readsAt, hi, decide_true]
    simp only [readCount, List.countP_singleton, hs, if_true]
    rfl
  | pass hi hc | jump hi hc _ =>
    rcases hc with ⟨rfl, _⟩ | ⟨rfl, _⟩
    · exact hkeep (by simp only [readsAt, hi, Option.some.injEq, reduceCtorEq, decide_false])
    · exact hkeep (by simp only [readsAt, hi, Option.some.injEq, reduceCtorEq, decide_false])

/-- The budget at the end of a trail is the initial one less the reads made on it. -/
theorem readsLeft_of_trail (h : (program.stateSpace io).Trail left s) :
    s.readsLeft = io.maxReads.map (· - program.readCount left) := by
  induction h with
  | initial =>
    change io.maxReads = io.maxReads.map (· - 0)
    simp only [Nat.sub_zero, Option.map_id']
  | @next left s t _ hst ih =>
    have hcount : program.readCount (left ++ [s]) =
        program.readCount left + program.readCount [s] := List.countP_append
    rw [(transition_of_leads hst).readsLeft_eq, ih, Option.map_map, hcount]
    congr 1
    funext n
    exact (Nat.sub_add_eq n _ _).symm

/-- A stored cell of a reachable state lies on the tape and is not zero. -/
theorem Confined.stored (h : Confined program io s) {p : Nat} {value : UInt8}
    (hp : s.cells[p]? = some value) : p < defaultTapeLength ∧ value ≠ 0 := by
  have hne : value ≠ 0 := fun hzero => h.canonical.nonzero p (hzero ▸ hp)
  refine ⟨Nat.lt_of_not_le fun hle => hne ?_, hne⟩
  have hcell := h.cells p hle
  rwa [State.cell, hp, Option.getD_some] at hcell

/-- Wherever a run of a program that was read from a text has got to: its position is within
the program or at its end, its pointer and its stored cells are on the tape, no stored cell
is zero, its budget is the initial one less the reads it has made, but not below zero, and
its successors are known. -/
theorem trail_invariant {source : String} (hsource : parse source = .ok program)
    (h : (program.stateSpace io).Trail left s) :
    s.pc ≤ program.size ∧ s.pointer < 30000 ∧
      (∀ (p : Nat) (value : UInt8), s.cells[p]? = some value → p < 30000 ∧ value ≠ 0) ∧
      s.readsLeft = io.maxReads.map (· - program.readCount left) ∧
      ∃ next, (program.stateSpace io).successors s = .ok next := by
  have hconfined := confined_of_reachable h.reachable
  have hknown :=
    exists_successors (validate_of_parse hsource) (inRange_of_parse hsource) h.reachable
  exact ⟨pc_le_of_parse hsource h.reachable, hconfined.pointer, fun _ _ => hconfined.stored,
    readsLeft_of_trail h, hknown⟩

/-- Go around the tape to the left and read twice. -/
def backwards : Program := .ofTables [.moveLeft, .read, .read] [] []

/-- One byte may be read, and further reads store a seven. -/
def sevenAfterOne : InputModel := { maxReads := some 1, eofByte := 7 }

/-- The second read finds the budget used up and leaves it there, with its byte in the last
cell of the tape. -/
theorem backwards_trail_invariant :
    ∃ s t u v : State, (backwards.stateSpace sevenAfterOne).Trail [s, t, u] v ∧
      parse "<,," = .ok backwards ∧ backwards.readCount [s, t, u] = 2 ∧
      v.cells[29999]? = some 7 ∧ v.readsLeft = some 0 ∧ v.pc ≤ 3 ∧ v.pointer < 30000 ∧
      (∀ (p : Nat) (value : UInt8), v.cells[p]? = some value → p < 30000 ∧ value ≠ 0) ∧
      ∃ next, (backwards.stateSpace sevenAfterOne).successors v = .ok next := by
  have hsource : parse "<,," = .ok backwards := by rfl
  let s : State := .initial (some 1)
  let t : State := s.move 1 29999
  let u : State := t.receive 2 65
  have hst : (backwards.stateSpace sevenAfterOne).Leads s t := ⟨[t], rfl, List.mem_cons_self⟩
  have htu : (backwards.stateSpace sevenAfterOne).Leads t u :=
    ⟨_, rfl, List.mem_map_of_mem (PossibleReads.mem_any 65)⟩
  have huv : (backwards.stateSpace sevenAfterOne).Leads u (u.receive 3 7) :=
    ⟨[u.receive 3 7], rfl, List.mem_cons_self⟩
  have htrail := ((TransitionSystem.Trail.initial.next hst).next htu).next huv
  have hcell : (u.receive 3 7).cells[29999]? = some 7 := Std.ExtTreeMap.getElem?_insert_self
  have hcount : backwards.readCount [s, t, u] = 2 := rfl
  obtain ⟨hpc, hpointer, hcells, hreads, hnext⟩ := trail_invariant hsource htrail
  exact ⟨s, t, u, _, htrail, hsource, hcount, hcell, hreads, hpc, hpointer, hcells, hnext⟩

end Program

end TapeReach
