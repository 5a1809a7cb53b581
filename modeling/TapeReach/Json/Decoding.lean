import TapeReach.Json.Encoding
import TapeReach.Json.Record

/-!
# Reading settings from JSON

The records of the JSON forms are read back. Settings may leave out any
field, which then has its default; the other records have to be complete,
apart from fields that may be absent. Durations tolerate no other field.
-/

namespace TapeReach

open Json (Reading)
open Json.Reading (orNull? natural? bool? text?)

/-- Read a cell width. -/
def CellWidth.ofJson? (reading : Reading) : Option CellWidth := do
  let word ← reading.choice?
  [bits8, bits16, bits32].find? (·.word == word)

/-- Read a memory model. -/
def MemoryModel.ofJson? (reading : Reading) : Option MemoryModel := do
  match ← reading.slots? ["cell_size", "tape_len", "wrapping"] true with
  | [width, length, wrapping] =>
    return {
      width := ← width.required CellWidth.ofJson?
      length := ← length.required (natural? Text.wordBound)
      wrapping := ← wrapping.required bool? }
  | _ => none

/-- Read an input model. -/
def InputModel.ofJson? (reading : Reading) : Option InputModel := do
  match ← reading.slots? ["max_reads", "eof_byte", "no_change_on_eof"] true with
  | [maxReads, eofByte, noChangeOnEof] =>
    return {
      maxReads := ← maxReads.nullable (orNull? (natural? Text.wordBound))
      eofByte := UInt8.ofNat (← eofByte.required (natural? Text.byteBound))
      noChangeOnEof := ← noChangeOnEof.required bool? }
  | _ => none

/-- Read a duration. -/
def Duration.ofJson? (reading : Reading) : Option Duration := do
  match ← reading.slots? ["secs", "nanos"] false with
  | [seconds, nanoseconds] =>
    ofParts? (← seconds.required (natural? Text.wordBound))
      (← nanoseconds.required (natural? (Nat.pow 2 32)))
  | _ => none

/-- Read settings. -/
def Settings.ofJson? (reading : Reading) : Option Settings := do
  let names :=
    ["label", "io", "max_states", "time_limit", "progress_interval", "graph_workers"]
  match ← reading.slots? names true with
  | [label, io, maxStates, timeLimit, progressInterval, graphWorkers] =>
    let count := orNull? (natural? Text.wordBound)
    let fallback : Settings := {}
    return {
      label := ← label.orElse fallback.label (orNull? text?)
      io := ← io.orElse fallback.io InputModel.ofJson?
      maxStates := ← maxStates.orElse fallback.maxStates count
      timeLimit := ← timeLimit.orElse fallback.timeLimit (orNull? Duration.ofJson?)
      progressInterval :=
        ← progressInterval.orElse fallback.progressInterval (natural? Text.wordBound)
      graphWorkers := ← graphWorkers.orElse fallback.graphWorkers count }
  | _ => none

end TapeReach
