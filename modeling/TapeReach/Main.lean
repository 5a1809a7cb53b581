import TapeReach.Cli.Session

/-!
# The program

The outer layer of the command line: it reads files and streams, asks the
clock, and writes what a session answers. A run reads its input when it needs
it and writes its output as it comes; a check looks at the clock between two
slices of the search.
-/

namespace TapeReach.Cli

/-- The number of a fault, which the system may give negated. -/
def faultNumber (code : UInt32) : UInt32 := if code < 0x80000000 then code else 0 - code

/-- The fault that the system reports. -/
def faultOf : IO.Error → FileError
  | .noFileOrDirectory .. => .notFound
  | e@(.inappropriateType _ code _) | e@(.invalidArgument _ code _) =>
    if faultNumber code = 20 then .notDirectory
    else if faultNumber code = 21 then .isDirectory
    else if faultNumber code = 36 then .nameTooLong
    else .other (toString e)
  | e => .other (toString e)

/-- Read the files that a command needs. -/
def readFiles (paths : List String) : IO FileReader := do
  let contents ← paths.mapM fun (path : String) => do
    match ← (IO.FS.readBinFile path).toBaseIO with
    | .ok bytes => return (path, Except.ok bytes)
    | .error e => return (path, Except.error (faultOf e))
  return fun path => (contents.lookup path).getD (.error .notFound)

/-- Write what a run has written since the last time. -/
def drain (output : IO.FS.Stream) (s : Execution) : IO Execution := do
  if s.output.written.isEmpty then return s
  output.write (ByteArray.mk s.output.written)
  if s.output.written.contains 10 then output.flush
  return { s with output.written := #[] }

/-- Give a run one byte of input if it asks for one. -/
def feed (plan : RunPlan) (input : IO.FS.Stream) (s : Execution) : IO Execution := do
  if s.awaitsInput plan.program plan.stepLimit then
    return { s with input.answers := (← input.read 1).toList.map .byte }
  else return s

/-- Run on the standard streams. -/
partial def runStreaming (plan : RunPlan) (input output : IO.FS.Stream) (s : Execution) :
    IO RunOutcome := do
  match (← feed plan input s).step plan.program plan.io plan.stepLimit with
  | .more s => runStreaming plan input output (← drain output s)
  | .done outcome => return outcome

/-- Search with the clock, a slice between two polls at a time. -/
partial def searchTimed (plan : CheckPlan) (started : Nat) (s : Search State) :
    IO (SearchResult State CheckError) := do
  let now ← IO.monoNanosNow
  let polls : Polls := { elapsed := fun _ => ⟨now - started⟩ }
  let step := Search.step (plan.program.stateSpace plan.settings.io) plan.target.holds
    plan.settings.limits polls
  match Loop.iterate step Search.pollInterval s with
  | .more s => searchTimed plan started s
  | .done result => return result

/-- Check a label with the clock. -/
def checkTimed (plan : CheckPlan) (asJson : Bool) (palette : Palette) :
    IO (Except Failure (Nat × String)) := do
  let started ← IO.monoNanosNow
  let result ←
    match Search.start (plan.program.stateSpace plan.settings.io) plan.target.holds with
    | .more s => searchTimed plan started s
    | .done result => pure result
  let elapsed := (← IO.monoNanosNow) - started
  return plan.conclude asJson palette result ⟨elapsed⟩

/-- Carry out a command on the standard streams. -/
def Invocation.carryOut (invocation : Invocation) (input output : IO.FS.Stream)
    (terminals : Terminals) : IO Response := do
  let read ← readFiles invocation.paths
  let stderr := invocation.palette terminals.stderr
  match invocation.command with
  | .execute options =>
    match planRun read options with
    | .ok plan =>
      return respondRun stderr (← runStreaming plan input output (plan.start (.ofBytes [])))
    | .error failure => return respond stderr (.error failure)
  | .checkReach options =>
    match planCheck read options with
    | .ok plan =>
      return respond stderr
        (← checkTimed plan options.json (invocation.palette terminals.stdout))
    | .error failure => return respond stderr (.error failure)
  | _ => return invocation.perform read [] terminals

end TapeReach.Cli

open TapeReach.Cli in
/-- Answer one call of the program. -/
def main (arguments : List String) : IO UInt32 := do
  let input ← IO.getStdin
  let output ← IO.getStdout
  let errors ← IO.getStderr
  let response ←
    match Invocation.parse arguments with
    | .error notice => pure notice.response
    | .ok invocation =>
      invocation.carryOut input output ⟨← output.isTty, ← errors.isTty⟩
  output.write response.stdout
  output.flush
  errors.putStr response.stderr
  return UInt32.ofNat response.exit
