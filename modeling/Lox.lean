import Lox.Main
import Lox.Proofs.Token.Scanning
import Lox.Proofs.Syntax.Exactness
import Lox.Proofs.Scoping.Assigning
import Lox.Proofs.Lexical.Refinement
import Lox.Proofs.Lexical.Actions
import Lox.Proofs.Lexical.Objects
import Lox.Proofs.Lexical.Following
import Lox.Proofs.Lexical.FollowExpressions
import Lox.Proofs.Lexical.FollowStatements
import Lox.Proofs.Mirror.Numbers
import Lox.Proofs.Incremental.Batches
import Lox.Proofs.Activation.Restoring
import Lox.Proofs.Binding.Distances
import Lox.Proofs.Binding.Balance
import Lox.Proofs.Rejection.Transcripts
import Lox.Proofs.History.Receivers
import Lox.Proofs.Guise.Blocks
import Lox.Proofs.Guise.Locals
import Lox.Proofs.Activation.Declarations
import Lox.Proofs.Loops.ForLoops
import Lox.Proofs.Recursion.Nesting
import Lox.Proofs.Recursion.Depth
import Lox.Proofs.Incremental.Printing
import Lox.Proofs.Rejection.ShiftedPrograms
import Lox.Proofs.Token.Numerals
import Lox.Proofs.Token.ByteScanning
import Lox.Proofs.Scoping.Nearest
import Lox.Proofs.Construction.Instances
import Lox.Proofs.Reporting.SourceOrder
