import Std.Data.ExtTreeMap
import TapeReach.Execution.Tape
import TapeReach.State.Digest
import TapeReach.Text.Hex

/-!
# Machine states

A machine state is a configuration of a program in the state space: position,
tape pointer, memory of 8-bit cells and the number of reads that may still
find a byte. Zero cells are never stored, so configurations that look alike
are equal values however they were reached.

Each state carries the digest of its memory, kept up to date by difference,
and a fingerprint of the whole configuration, which serves as its hash.
-/

namespace TapeReach

/-- A configuration of a program in the state space. -/
structure State where
  /-- Position of the next instruction. -/
  pc : Nat
  /-- Position of the current cell. -/
  pointer : Nat
  /-- Number of reads that may still find a byte, unlimited if absent. -/
  readsLeft : Option Nat
  /-- Digest of the memory. -/
  digest : UInt64
  /-- Fingerprint of the configuration. -/
  fingerprint : UInt64
  /-- The cells that are not zero. -/
  cells : Std.ExtTreeMap Nat UInt8

namespace State

/-- States are compared part by part, the memories last. The fingerprint tells most
states apart, and a state is equal to itself without a look at its memory. -/
instance : DecidableEq State := fun a b =>
  withPtrEqDecEq a b fun _ =>
    decidable_of_iff
      (a.fingerprint = b.fingerprint ∧ a.pc = b.pc ∧ a.pointer = b.pointer ∧
        a.readsLeft = b.readsLeft ∧ a.digest = b.digest ∧ a.cells = b.cells)
      (by cases a; cases b; simp only [mk.injEq]; grind)

/-- The fingerprint of a configuration whose memory has the given digest. -/
def fingerprintOf (pc pointer : Nat) (readsLeft : Option Nat) (digest : UInt64) : UInt64 :=
  let fp := Digest.extendNat (Digest.extendNat Digest.seed pc) pointer
  let fp := match readsLeft with
    | none => Digest.extendByte fp 0
    | some n => Digest.extendNat (Digest.extendByte fp 1) n
  Digest.extendWord fp digest

/-- The state with the given parts and its fingerprint. -/
def ofParts (pc pointer : Nat) (readsLeft : Option Nat) (digest : UInt64)
    (cells : Std.ExtTreeMap Nat UInt8) : State :=
  ⟨pc, pointer, readsLeft, digest, fingerprintOf pc pointer readsLeft digest, cells⟩

/-- The state before the first instruction: all cells zero. -/
def initial (readsLeft : Option Nat) : State := ofParts 0 0 readsLeft 0 ∅

/-- The state with the given cells. Zero cells are left out, then of two entries for
one cell the later counts. -/
def ofCells (pc pointer : Nat) (cells : List (Nat × UInt8)) (readsLeft : Option Nat) : State :=
  let cells := Std.ExtTreeMap.ofList (cells.filter fun entry => entry.2 ≠ 0)
  ofParts pc pointer readsLeft (Digest.memory cells.toList) cells

/-- The cells that are not zero, ascending. -/
def cellList (s : State) : List (Nat × UInt8) := s.cells.toList

/-- Value of a cell. -/
def cell (s : State) (position : Nat) : UInt8 := (s.cells[position]?).getD 0

/-- Value of the cell under the pointer. -/
def current (s : State) : UInt8 := s.cell s.pointer

/-- Go to another position of the program. -/
def jump (s : State) (pc : Nat) : State := ofParts pc s.pointer s.readsLeft s.digest s.cells

/-- Go to another position of the program and of the tape. -/
def move (s : State) (pc pointer : Nat) : State := ofParts pc pointer s.readsLeft s.digest s.cells

/-- Go to another position with a new value in the current cell and a new budget. -/
def store (s : State) (pc : Nat) (value : UInt8) (readsLeft : Option Nat) : State :=
  let cells := if value = 0 then s.cells.erase s.pointer else s.cells.insert s.pointer value
  ofParts pc s.pointer readsLeft (Digest.update s.digest s.pointer s.current value) cells

/-- Go to another position with a new value in the current cell. -/
def write (s : State) (pc : Nat) (value : UInt8) : State := s.store pc value s.readsLeft

/-- Go to another position with a byte that was read, which uses up one read. -/
def receive (s : State) (pc : Nat) (value : UInt8) : State :=
  s.store pc value (s.readsLeft.map (· - 1))

instance : Hashable State where
  hash s := s.fingerprint

/-- The whole configuration in one line. -/
def describe (s : State) : String :=
  let cells := s.cellList.map fun entry => s!"{entry.1}: {entry.2}"
  let reads := match s.readsLeft with
    | some n => toString n
    | none => "inf"
  s!"State\x7bpc: {s.pc}, mp: {s.pointer}, mem: \x7b" ++ ", ".intercalate cells ++
    "\x7d, reads: " ++ reads ++ "\x7d"

/-- Program position and tape position. -/
def brief (s : State) : String := s!"pc = {s.pc}; mp = {s.pointer}"

/-- Both positions and the fingerprint, on two lines. -/
def format (s : State) : String := s.brief ++ "\nhash = " ++ Text.hexWord s.fingerprint

end State

end TapeReach
