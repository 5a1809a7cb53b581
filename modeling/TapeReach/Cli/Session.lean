import TapeReach.Check
import TapeReach.Cli.Command
import TapeReach.Cli.Folder
import TapeReach.Cli.Palette
import TapeReach.Execution.Basic
import TapeReach.Graph.Dot
import TapeReach.Json.Encoding
import TapeReach.Lasso.Report
import TapeReach.Program.Render
import TapeReach.Settings.Directive

/-!
# Carrying out commands

A session answers one call of the program: what it writes and its exit code.
A check exits with `0`, `1` or `2` for its three kinds of answer, a call that
makes no sense with `2`, and a failure with `3`. The program is read before
the directive file, and options count more than directives.
-/

namespace TapeReach.Cli

/-- Why a command failed. -/
inductive Failure where
  /-- The program file cannot be read. -/
  | programFile (path : String) (cause : FileError)
  /-- The program file holds no program. -/
  | programText (path : String) (cause : SyntaxError)
  /-- The directive file cannot be read. -/
  | configFile (path : String) (cause : FileError)
  /-- The directive file is wrong. -/
  | configText (errors : List LineError)
  /-- There is no label to check. -/
  | noLabel
  /-- The program cannot be checked. -/
  | check (cause : CheckError)
  /-- The run failed. -/
  | run (cause : RunError)
  deriving DecidableEq

/-- The failure in words, the outermost cause first. -/
def Failure.message : Failure → String
  | programFile path cause =>
    s!"parsing of {path} failed: could not read program: " ++ cause.message ++ ": " ++ cause.message
  | programText path cause => s!"parsing of {path} failed: " ++ cause.message
  | configFile path cause => s!"cannot read config file {path}: " ++ cause.message
  | configText errors => LineError.summary errors
  | noLabel => "no label given; pass one or set LABEL in the config file"
  | check cause => cause.message
  | run (.stream fault) => (RunError.stream fault).message ++ ": " ++ fault.message
  | run cause => cause.message

/-- Exit code of a failure. -/
def failureExit : Nat := 3

/-- Number of nodes of a state graph unless chosen otherwise. -/
def defaultDotStates : Nat := 10000

/-- What the program writes, and its exit code. -/
structure Response where
  /-- Exit code. -/
  exit : Nat
  /-- What is written to the standard output. -/
  stdout : ByteArray
  /-- What is written to the standard error stream. -/
  stderr : String

/-- Read a program. -/
def loadProgram (read : FileReader) (path : String) : Except Failure Program := do
  let text ← (read.text path).mapError (.programFile path)
  (Program.parse text).mapError (.programText path)

/-- Read a directive file; without one the settings have their defaults. -/
def loadSettings (read : FileReader) : Option String → Except Failure Settings
  | none => .ok {}
  | some path => do
    let text ← (read.text path).mapError (.configFile path)
    (Settings.parse text).mapError .configText

/-- The canonical text of a program, as a line. -/
def print (read : FileReader) (options : PrintOptions) : Except Failure String := do
  let program ← loadProgram read options.file
  return program.render (!options.noLabels) ++ "\n"

/-- The settings of a drawing: options on top of directives. -/
def DotOptions.settings (options : DotOptions) (base : Settings) : Settings :=
  { base with
    io := options.io.apply base.io
    maxStates := options.maxStates <|> base.maxStates <|> some defaultDotStates
    graphWorkers := options.workers <|> base.graphWorkers }

/-- The state graph of a program as DOT text. -/
def dot (read : FileReader) (options : DotOptions) : Except Failure String := do
  let program ← loadProgram read options.file
  let settings := options.settings (← loadSettings read options.config)
  program.validate.mapError .check
  let graph ← (program.explore settings.io settings.maxStates).mapError .check
  return Dot.render graph (Labeling.ofProgram program)

/-- A run that is ready to start. -/
structure RunPlan where
  /-- The program. -/
  program : Program
  /-- How reads behave. -/
  io : InputModel
  /-- The shape of the tape. -/
  memory : MemoryModel
  /-- Number of instructions that may be executed. -/
  stepLimit : Option Nat

/-- Prepare a run. -/
def planRun (read : FileReader) (options : ExecuteOptions) : Except Failure RunPlan := do
  let program ← loadProgram read options.file
  return ⟨program, options.io.apply {}, options.memory, options.stepLimit⟩

/-- The run at its start, with an input stream. -/
def RunPlan.start (plan : RunPlan) (input : InputStream) : Execution :=
  .start plan.io (.blank plan.memory) input {}

/-- The settings of a check: options on top of directives. -/
def CheckOptions.settings (options : CheckOptions) (base : Settings) : Settings :=
  { base with
    label := options.label <|> base.label
    io := options.io.apply base.io
    maxStates := options.maxStates <|> base.maxStates
    timeLimit := options.timeLimit.map Duration.ofSeconds <|> base.timeLimit }

/-- A check that is ready to start. -/
structure CheckPlan where
  /-- The program. -/
  program : Program
  /-- The label. -/
  label : String
  /-- The settings. -/
  settings : Settings
  /-- The positions of the label. -/
  target : Target

/-- Prepare a check. -/
def planCheck (read : FileReader) (options : CheckOptions) : Except Failure CheckPlan := do
  let program ← loadProgram read options.file
  let settings := options.settings (← loadSettings read options.config)
  match settings.label with
  | none => throw .noLabel
  | some label =>
    let target ← (program.checkTarget label).mapError .check
    return ⟨program, label, settings, target⟩

/-- Exit code for each kind of answer. -/
def exitOf : Verdict State → Nat
  | .unavoidable => 0
  | .counterexample _ => 1
  | .incomplete _ => 2

/-- The word for each kind of answer. -/
def wordOf : Verdict State → String
  | .unavoidable => "unavoidable"
  | .counterexample _ => "counterexample"
  | .incomplete _ => "incomplete"

namespace CheckPlan

/-- The answer in JSON. -/
def json (plan : CheckPlan) (analysis : Analysis) (elapsed : Duration) :
    Except CheckError Json := do
  let details ← match analysis.verdict with
    | .unavoidable => pure []
    | .incomplete reason => pure [("stop_reason", reason.toJson)]
    | .counterexample lasso => do
      let report ← Report.ofLasso plan.program lasso plan.label
      pure [("counterexample", report.toJson)]
  return .object ([("label", .text plan.label), ("outcome", .text (wordOf analysis.verdict))] ++
    details ++ [("stats", analysis.stats.toJson elapsed)])

/-- The line that shows a counterexample: stem, cycle, and the rest of the program. -/
def lassoLine (palette : Palette) (report : Report) : String :=
  palette.paint .blue report.stem ++ palette.paint .red report.cycle ++
    String.join (report.continuation.map fun piece =>
      match piece with
      | .code symbols => palette.paint .blue symbols
      | .label _ => palette.paint .yellow piece.text)

/-- The lines that show a counterexample. -/
def lassoLines (plan : CheckPlan) (palette : Palette) (lasso : Lasso State) :
    Except CheckError (List String) := do
  let report ← Report.ofLasso plan.program lasso plan.label
  let headline :=
    s!"There exists a run for which the label \"{plan.label}\" will not be reached:"
  let stuck := match lasso.kind, lasso.cycle.getLast? with
    | .deadEnd, some last => [s!"The run gets stuck at pc {last.pc}."]
    | _, _ => []
  return [palette.paint .red headline, lassoLine palette report] ++ stuck

/-- The lines that show an answer. -/
def lines (plan : CheckPlan) (palette : Palette) (analysis : Analysis) :
    Except CheckError (List String) :=
  match analysis.verdict with
  | .unavoidable => .ok [palette.paint .green s!"Label \"{plan.label}\" will always be reached."]
  | .counterexample lasso => plan.lassoLines palette lasso
  | .incomplete reason =>
    .ok [palette.paint .yellow ("Search stopped before a verdict: " ++ reason.message ++
      s!" ({analysis.stats.visited} states visited).")]

/-- The text of an answer. -/
def text (plan : CheckPlan) (asJson : Bool) (palette : Palette) (analysis : Analysis)
    (elapsed : Duration) : Except CheckError String := do
  if asJson then return (← plan.json analysis elapsed).pretty ++ "\n"
  else return String.join ((← plan.lines palette analysis).map (· ++ "\n"))

/-- Exit code and text for the result of the search, which took some time. -/
def conclude (plan : CheckPlan) (asJson : Bool) (palette : Palette)
    (result : SearchResult State CheckError) (elapsed : Duration) :
    Except Failure (Nat × String) := do
  let verdict ← result.verdict.mapError .check
  let text ← (plan.text asJson palette ⟨verdict, result.stats⟩ elapsed).mapError .check
  return (exitOf verdict, text)

end CheckPlan

/-- Which streams are terminals. -/
structure Terminals where
  /-- The standard output is a terminal. -/
  stdout : Bool := false
  /-- The standard error stream is a terminal. -/
  stderr : Bool := false

/-- The line for a failure. -/
def failureLine (palette : Palette) (failure : Failure) : String :=
  palette.paint .red ("error: " ++ failure.message) ++ "\n"

/-- How a call is used, in a few lines. -/
def usage : String :=
  "Usage: braincheck [-v] [--no-color] COMMAND\n\n" ++
  "  execute FILE [INPUT] [--cell-size 8|16|32] [--tape-len N] [--no-wrap] [--step-limit N]\n" ++
  "  print FILE [--no-labels]\n" ++
  "  dot FILE [INPUT] [--max-states N] [--workers N] [--config FILE]\n" ++
  "  check-reach FILE [LABEL] [INPUT] [--max-states N] [--time-limit SECONDS]\n" ++
  "              [--config FILE] [--json]\n\n" ++
  "INPUT is any of --max-reads N, --eof-byte BYTE, --no-change-on-eof, --change-on-eof.\n"

/-- The answer to a call that carries out no command. -/
def Notice.response : Notice → Response
  | .version => ⟨0, "braincheck 0.1.0\n".toUTF8, ""⟩
  | .help => ⟨0, usage.toUTF8, ""⟩
  | .misuse => ⟨2, .empty, usage⟩

/-- The answer of a command that writes text and succeeds, or fails. -/
def respond (stderr : Palette) : Except Failure (Nat × String) → Response
  | .ok (exit, text) => ⟨exit, text.toUTF8, ""⟩
  | .error failure => ⟨failureExit, .empty, failureLine stderr failure⟩

/-- The answer of a run: its output, also that of a run that failed. -/
def respondRun (stderr : Palette) (outcome : RunOutcome) : Response :=
  let output := ByteArray.mk outcome.final.output.written
  match outcome.result with
  | .ok _ => ⟨0, output, ""⟩
  | .error cause => ⟨failureExit, output, failureLine stderr (.run cause)⟩

/-- Check a label with a clock that stands still. -/
def check (read : FileReader) (options : CheckOptions) (palette : Palette) :
    Except Failure (Nat × String) := do
  let plan ← planCheck read options
  plan.conclude options.json palette (plan.program.search plan.target plan.settings {}) ⟨0⟩

/-- The colours for a stream. -/
def Invocation.palette (invocation : Invocation) (isTerminal : Bool) : Palette :=
  ⟨!invocation.noColour && isTerminal⟩

/-- Carry out a command with a clock that stands still. -/
def Invocation.perform (invocation : Invocation) (read : FileReader) (stdin : List UInt8)
    (terminals : Terminals) : Response :=
  let stderr := invocation.palette terminals.stderr
  match invocation.command with
  | .execute options =>
    match planRun read options with
    | .error failure => respond stderr (.error failure)
    | .ok plan =>
      respondRun stderr ((plan.start (.ofBytes stdin)).run plan.program plan.io plan.stepLimit)
  | .print options => respond stderr ((print read options).map (0, ·))
  | .dot options => respond stderr ((dot read options).map (0, ·))
  | .checkReach options =>
    respond stderr (check read options (invocation.palette terminals.stdout))

/-- Answer a call with the given arguments. -/
def session (arguments : List String) (read : FileReader) (stdin : List UInt8)
    (terminals : Terminals) : Response :=
  match Invocation.parse arguments with
  | .error notice => notice.response
  | .ok invocation => invocation.perform read stdin terminals

end TapeReach.Cli
