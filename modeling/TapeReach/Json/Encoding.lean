import TapeReach.Check
import TapeReach.Json.Basic
import TapeReach.Lasso.Report

/-!
# JSON forms

The JSON form of each value that is written: settings, machine states,
reasons to stop, counterexamples and counters. An absent value is `null`, and
a duration is split into seconds and nanoseconds.
-/

namespace TapeReach

/-- Name of a cell width. -/
def CellWidth.word : CellWidth → String
  | bits8 => "EightBit"
  | bits16 => "SixteenBit"
  | bits32 => "ThirtyTwoBit"

/-- The JSON form of a cell width. -/
def CellWidth.toJson (width : CellWidth) : Json := .text width.word

/-- The JSON form of a memory model. -/
def MemoryModel.toJson (model : MemoryModel) : Json :=
  .object [("cell_size", model.width.toJson), ("tape_len", .number model.length),
    ("wrapping", .bool model.wrapping)]

/-- The JSON form of an input model. -/
def InputModel.toJson (model : InputModel) : Json :=
  .object [("max_reads", .optional .number model.maxReads),
    ("eof_byte", .number model.eofByte.toNat), ("no_change_on_eof", .bool model.noChangeOnEof)]

/-- The JSON form of a duration. -/
def Duration.toJson (d : Duration) : Json :=
  .object [("secs", .number d.seconds), ("nanos", .number d.subsecond)]

/-- The JSON form of settings. -/
def Settings.toJson (settings : Settings) : Json :=
  .object [("label", .optional .text settings.label), ("io", settings.io.toJson),
    ("max_states", .optional .number settings.maxStates),
    ("time_limit", .optional Duration.toJson settings.timeLimit),
    ("progress_interval", .number settings.progressInterval),
    ("graph_workers", .optional .number settings.graphWorkers)]

/-- The JSON form of a machine state. -/
def State.toJson (s : State) : Json :=
  let cells := s.cellList.map fun entry => .array [.number entry.1, .number entry.2.toNat]
  .object [("pc", .number s.pc), ("mem_ptr", .number s.pointer), ("cells", .array cells),
    ("reads_remaining", .optional .number s.readsLeft),
    ("fingerprint", .number s.fingerprint.toNat)]

/-- The JSON form of a reason to stop. -/
def StopReason.toJson : StopReason → Json
  | stateLimit limit => .object [("reason", .text "state_limit"), ("limit", .number limit)]
  | timeLimit limit => .object [("reason", .text "time_limit"), ("limit", limit.toJson)]
  | cancelled => .object [("reason", .text "cancelled")]
  | iterationLimit => .object [("reason", .text "iteration_limit")]

/-- The JSON form of a piece of program text. -/
def Piece.toJson : Piece → Json
  | code symbols => .object [("kind", .text "code"), ("text", .text symbols)]
  | label name => .object [("kind", .text "label"), ("text", .text name)]

/-- The JSON form of a counterexample. -/
def Report.toJson (report : Report) : Json :=
  .object [("label", .text report.label), ("kind", .text report.lasso.kind.word),
    ("prefix", .text report.stem), ("cycle", .text report.cycle),
    ("continuation", .array (report.continuation.map Piece.toJson)),
    ("prefix_states", .array (report.lasso.stem.map State.toJson)),
    ("cycle_states", .array (report.lasso.cycle.map State.toJson))]

/-- The JSON form of counters, with the time the search took. -/
def SearchStats.toJson (stats : SearchStats) (elapsed : Duration) : Json :=
  .object [("states_expanded", .number stats.expanded), ("states_visited", .number stats.visited),
    ("max_depth", .number stats.maxDepth), ("elapsed", elapsed.toJson)]

end TapeReach
