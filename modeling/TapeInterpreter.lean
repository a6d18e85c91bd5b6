import TapeInterpreter.Session
import TapeInterpreter.Console.Script
import TapeInterpreter.Console.Recording
import TapeInterpreter.Host.Memory
import TapeInterpreter.Main
import TapeInterpreter.Tape.InRange
import TapeInterpreter.Evaluation.Patience
import TapeInterpreter.Proofs.Behaviour
import TapeInterpreter.Proofs.Consistency
import TapeInterpreter.Proofs.DryPass
import TapeInterpreter.Proofs.SyntaxVerdict
import TapeInterpreter.Proofs.Attempt
import TapeInterpreter.Proofs.CallDiscipline
import TapeInterpreter.Proofs.Cancellation
import TapeInterpreter.Proofs.Concatenation
import TapeInterpreter.Proofs.Grammar
import TapeInterpreter.Proofs.Isolation
import TapeInterpreter.Proofs.Rescanning
import TapeInterpreter.Proofs.Stripping
import TapeInterpreter.Proofs.TreeRuns
import TapeInterpreter.Proofs.UnreadInput
import TapeInterpreter.Proofs.Ring
import TapeInterpreter.Proofs.TapeWidth
import TapeInterpreter.Proofs.InTurn
import TapeInterpreter.Proofs.Launches
import TapeInterpreter.Proofs.TapeHistory
import TapeInterpreter.Proofs.LimitedRuns
import TapeInterpreter.Proofs.Guards
import TapeInterpreter.Proofs.NestingLimit
import TapeInterpreter.Proofs.Positions
import TapeInterpreter.Proofs.Skipping
import TapeInterpreter.Proofs.Words
import TapeInterpreter.Proofs.Insertion
import TapeInterpreter.Text.Strip
import TapeInterpreter.Text.Bytes
import TapeInterpreter.Limits.Slices
import TapeInterpreter.Proofs.Caret
import TapeInterpreter.Proofs.ConfigLines
import TapeInterpreter.Proofs.LimitEntries
import TapeInterpreter.Proofs.ConfigComments
import TapeInterpreter.Proofs.ConfigRendering
import TapeInterpreter.Proofs.Precedence
import TapeInterpreter.Proofs.ProgramArguments
import TapeInterpreter.Proofs.OptionRendering
import TapeInterpreter.Proofs.Prompts
import TapeInterpreter.Proofs.Echo
import TapeInterpreter.Proofs.Closings
import TapeInterpreter.Proofs.SkippedOnce
