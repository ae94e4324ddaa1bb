import DebugGuard.Cli.LogFormat
import DebugGuard.Cli.Run
import DebugGuard.Main
import DebugGuard.Proofs.Forest.Change
import DebugGuard.Proofs.Forest.Edit
import DebugGuard.Proofs.Forest.Parsed
import DebugGuard.Proofs.Forest.Way
import DebugGuard.Proofs.Forest.Graft
import DebugGuard.Proofs.Forest.Planting
import DebugGuard.Proofs.Scope.Lookup
import DebugGuard.Proofs.Forest.Rooted
import DebugGuard.Proofs.Scope.Carried
import DebugGuard.Proofs.Expand.Run
import DebugGuard.Proofs.Expand.Draft
import DebugGuard.Proofs.Expand.Inline
import DebugGuard.Proofs.Expand.Prepared
import DebugGuard.Proofs.Expand.Plan
import DebugGuard.Proofs.Expand.Account
import DebugGuard.Proofs.Expand.Visit
import DebugGuard.Proofs.Scope.Fresh
import DebugGuard.Proofs.Expand.Finish
import DebugGuard.Proofs.Expand.Frame
import DebugGuard.Proofs.Expand.Cleanup
import DebugGuard.Proofs.Expand.Hygiene
import DebugGuard.Proofs.Expand.Lent
import DebugGuard.Proofs.Expand.Placement
import DebugGuard.Proofs.Expand.Order
import DebugGuard.Proofs.Forest.Ordered
import DebugGuard.Proofs.Forest.Mutation
import DebugGuard.Proofs.Forest.Ledger
import DebugGuard.Proofs.Forest.Graded
import DebugGuard.Proofs.Expand.Height
import DebugGuard.Proofs.Expand.Worked
import DebugGuard.Proofs.Expand.Refused
import DebugGuard.Proofs.Text.Hexadecimal
import DebugGuard.Proofs.Text.Surrogate
import DebugGuard.Proofs.Text.Literal
import DebugGuard.Proofs.Text.Decoding
import DebugGuard.Proofs.Text.Malformed
import DebugGuard.Proofs.Text.Quoted
import DebugGuard.Proofs.Script.Literals
import DebugGuard.Proofs.Scope.Hoisting
import DebugGuard.Proofs.Script.Partition
import DebugGuard.Proofs.Script.Boundary
import DebugGuard.Proofs.Script.Segment
import DebugGuard.Proofs.Script.Alike
import DebugGuard.Proofs.Script.Muted
import DebugGuard.Proofs.Script.Parenthesize
import DebugGuard.Proofs.Script.Branches
import DebugGuard.Proofs.Script.NewCallee
import DebugGuard.Proofs.Script.ArrowBody
import DebugGuard.Proofs.Script.Climbing
import DebugGuard.Proofs.Script.Progress
import DebugGuard.Proofs.Script.Names
import DebugGuard.Proofs.Forest.Outline
import DebugGuard.Proofs.Script.Signs
import DebugGuard.Proofs.Script.LineBreaks
import DebugGuard.Proofs.Cli.Files
import DebugGuard.Proofs.Cli.Run
import DebugGuard.Proofs.Cli.Printout
import DebugGuard.Proofs.Text.Coordinates
