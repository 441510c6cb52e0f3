import DivisionScript.CommandLine.Command
import DivisionScript.Main
import DivisionScript.Proofs.Grammar.Reads
import DivisionScript.Proofs.Grammar.Expression
import DivisionScript.Proofs.Grammar.Enclosed
import DivisionScript.Proofs.Grammar.Statement
import DivisionScript.Proofs.Grammar.Program
import DivisionScript.Proofs.Run.Frame
import DivisionScript.Proofs.Run.Failure
import DivisionScript.Proofs.Run.Call
import DivisionScript.Proofs.Run.Depth
import DivisionScript.Proofs.Run.Step
import DivisionScript.Proofs.Run.Termination
import DivisionScript.Proofs.Run.Targets
import DivisionScript.Proofs.Run.Session
import DivisionScript.Proofs.Run.Constants
import DivisionScript.Proofs.Run.Relabel
import DivisionScript.Proofs.Run.Inert
import DivisionScript.Proofs.Log
import DivisionScript.Proofs.Program
import DivisionScript.Proofs.Token.Munch
import DivisionScript.Proofs.Token.Tiling
import DivisionScript.Proofs.Token.Span
import DivisionScript.Proofs.Grammar.Phrase
import DivisionScript.Proofs.Source
import DivisionScript.Proofs.Layout
import DivisionScript.Proofs.Answers
import DivisionScript.Proofs.Token.Blanking
import DivisionScript.Proofs.Outline.Program
import DivisionScript.Proofs.Walker.Program
import DivisionScript.Proofs.Run.Unfold
import DivisionScript.Proofs.Run.Blame
import DivisionScript.Proofs.Run.Begin
import DivisionScript.Proofs.Run.CallDepth
import DivisionScript.Proofs.Run.Leniency
import DivisionScript.Proofs.Run.Secluded
import DivisionScript.Proofs.Run.Mute
import DivisionScript.Proofs.Run.Truncation
import DivisionScript.Proofs.Grammar.Conforms
import DivisionScript.Proofs.Grammar.ExpressionConforms
import DivisionScript.Proofs.Grammar.StatementLanguage
import DivisionScript.Proofs.Grammar.ProgramLanguage
import DivisionScript.Proofs.Grammar.StatementConforms
import DivisionScript.Proofs.Grammar.Offending
import DivisionScript.Proofs.Run.OperandStack
import DivisionScript.Proofs.Run.Unroll
import DivisionScript.Proofs.Rename
import DivisionScript.Proofs.Run.Translation
import DivisionScript.Proofs.Run.Rename
import DivisionScript.Proofs.Run.Behind
import DivisionScript.Proofs.Run.Intake
import DivisionScript.Proofs.CommandLine.LogFile
import DivisionScript.Proofs.CommandLine.Prompt
import DivisionScript.Proofs.Number.Scientific
import DivisionScript.Proofs.Number.Value
import DivisionScript.Proofs.Number.Nearest
import DivisionScript.Proofs.Number.ReadBack
import DivisionScript.Proofs.Run.Integer
import DivisionScript.Proofs.Run.Counting
import DivisionScript.Proofs.Run.Drawing
import DivisionScript.Proofs.Run.Reading
import DivisionScript.Proofs.Run.Transfer
import DivisionScript.Proofs.Run.Result
import DivisionScript.Proofs.Run.Identifiers
import DivisionScript.Proofs.Run.Definitions
import DivisionScript.Proofs.Run.Declarations
import DivisionScript.Proofs.Height
import DivisionScript.Proofs.Run.Replay
import DivisionScript.Proofs.Json.Text
import DivisionScript.Proofs.Json.Reading
import DivisionScript.Proofs.Settings.Reading
import DivisionScript.Proofs.CommandLine.Files
import DivisionScript.Proofs.CommandLine.Settings
import DivisionScript.Proofs.CommandLine.Subcommands
