import TapeReach.Json.Decoding
import TapeReach.Main
import TapeReach.Proofs.Lasso.Invariant
import TapeReach.Proofs.Lasso.Verdict
import TapeReach.Proofs.Lasso.Iterations
import TapeReach.Proofs.State.Canonical
import TapeReach.Proofs.State.Transition
import TapeReach.Proofs.Check
import TapeReach.Proofs.Execution.Replay
import TapeReach.Proofs.Lasso.Unrolling
import TapeReach.Proofs.Program.Parsed
import TapeReach.Proofs.State.Built
import TapeReach.Proofs.Counterexample
import TapeReach.Proofs.Graph.Distance
import TapeReach.Proofs.Graph.Exactness
import TapeReach.Proofs.Graph.Truncation
import TapeReach.Proofs.Budget
import TapeReach.Proofs.Lasso.Limits
import TapeReach.Proofs.Lasso.Agreement
import TapeReach.Proofs.Graph.Workers
import TapeReach.Proofs.Graph.Interleaving
import TapeReach.Proofs.Program.Brackets
import TapeReach.Proofs.Program.Pieces
import TapeReach.Proofs.Program.Grammar
import TapeReach.Proofs.Program.RoundTrip
import TapeReach.Proofs.Program.Block
import TapeReach.Proofs.Execution.Structured
import TapeReach.Proofs.Failure
import TapeReach.Proofs.Graph.Decision
import TapeReach.Proofs.Lasso.Report
import TapeReach.Proofs.State.Trail
import TapeReach.Proofs.State.Division
import TapeReach.Proofs.State.Neighbours
import TapeReach.Proofs.State.Lexicographic
import TapeReach.Proofs.Lasso.Counters
import TapeReach.Proofs.Program.Propositions
import TapeReach.Proofs.State.Branching
import TapeReach.Proofs.Execution.Step
import TapeReach.Proofs.Execution.StepLimit
import TapeReach.Proofs.Execution.Stream
import TapeReach.Proofs.Execution.Fault
import TapeReach.Proofs.Execution.Dense
import TapeReach.Proofs.Program.Concatenation
import TapeReach.Proofs.Settings.Comment
import TapeReach.Proofs.Settings.Field
import TapeReach.Proofs.Settings.Lines
import TapeReach.Proofs.Lasso.Continuation
import TapeReach.Proofs.Settings.Scanner
import TapeReach.Proofs.Settings.Offsets
import TapeReach.Proofs.Graph.Quoted
import TapeReach.Proofs.Graph.Document
import TapeReach.Proofs.Lasso.Bookkeeping
