import Gx.Command.Simulation
import Gx.Grammar.Pattern
import Gx.Main
import Gx.Wire
import Gx.Proofs.Bitmap
import Gx.Proofs.Image
import Gx.Proofs.Encoding
import Gx.Proofs.Queue
import Gx.Proofs.References
import Gx.Proofs.Resolve
import Gx.Proofs.ResolveOutcome
import Gx.Proofs.Scopes
import Gx.Proofs.Visits
import Gx.Proofs.TwoPasses
import Gx.Proofs.Grammar.Reading
import Gx.Proofs.Grammar.Combinators
import Gx.Proofs.Grammar.Case
import Gx.Proofs.Grammar.Lexer
import Gx.Proofs.Grammar.Operands
import Gx.Proofs.Grammar.Statements
import Gx.Proofs.Grammar.Program
import Gx.Proofs.Grammar.Runs
import Gx.Proofs.Grammar.Replies
import Gx.Proofs.Grammar.Endings
import Gx.Proofs.Grammar.Layout
import Gx.Proofs.Grammar.Nodes
import Gx.Proofs.Grammar.Placement
import Gx.Proofs.Grammar.Rereading
import Gx.Proofs.Failures
import Gx.Proofs.Uses
import Gx.Proofs.ReferenceOrder
import Gx.Proofs.DirectiveLines
import Gx.Proofs.Expansion
import Gx.Proofs.Sessions
import Gx.Proofs.Blocks
import Gx.Proofs.Ranges
import Gx.Proofs.Decoding
import Gx.Proofs.Cells
import Gx.Proofs.Narrowing
import Gx.Proofs.Idempotence
import Gx.Proofs.Renaming.Names
import Gx.Proofs.Renaming.Encoding
import Gx.Proofs.Renaming.Assembling
import Gx.Proofs.ImageHistory
import Gx.Proofs.ResolveEach
import Gx.Proofs.EarlyResolve
import Gx.Proofs.FailureListing
import Gx.Proofs.Numerals
import Gx.Proofs.BitmapSet
import Gx.Proofs.ScopeHistory
import Gx.Proofs.Paths
import Gx.Proofs.OutputName
import Gx.Proofs.ReferencePlaces
import Gx.Proofs.LineScan
import Gx.Proofs.Places
import Gx.Proofs.ImageListing
