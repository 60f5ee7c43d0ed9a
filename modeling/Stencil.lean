import Stencil.Binding.ConcreteType
import Stencil.Binding.Instantiation
import Stencil.Binding.Vocabulary
import Stencil.Command.Arguments
import Stencil.Command.Response
import Stencil.Diagnostic
import Stencil.Files.Fault
import Stencil.Files.Tree
import Stencil.Generation.Claim
import Stencil.Generation.OutputPath
import Stencil.Generation.Run
import Stencil.Generation.RunError
import Stencil.Generation.Settings
import Stencil.Generation.Summary
import Stencil.Grammar.Bodies
import Stencil.Grammar.Declarations
import Stencil.Grammar.Rule
import Stencil.Grammar.Types
import Stencil.Grammar.Unit
import Stencil.Main
import Stencil.Path
import Stencil.Proofs.Edits
import Stencil.Proofs.Excerpt
import Stencil.Proofs.Files.Contents
import Stencil.Proofs.Files.Destination
import Stencil.Proofs.Files.Operations
import Stencil.Proofs.Files.Sound
import Stencil.Proofs.Files.Without
import Stencil.Proofs.Frame
import Stencil.Proofs.Generation.Alone
import Stencil.Proofs.Generation.Claims
import Stencil.Proofs.Generation.ClassName
import Stencil.Proofs.Generation.Clean
import Stencil.Proofs.Generation.Distinct
import Stencil.Proofs.Generation.Execute
import Stencil.Proofs.Generation.FailFast
import Stencil.Proofs.Generation.Incremental
import Stencil.Proofs.Generation.Leaves
import Stencil.Proofs.Generation.OutputPath
import Stencil.Proofs.Generation.Preserve
import Stencil.Proofs.Generation.Reduction
import Stencil.Proofs.Generation.Repeat
import Stencil.Proofs.Generation.Scheduling
import Stencil.Proofs.Generation.SecondRun
import Stencil.Proofs.Generation.Settlement
import Stencil.Proofs.Generation.Sources
import Stencil.Proofs.Generic
import Stencil.Proofs.Grammar.Balance
import Stencil.Proofs.Grammar.BareType
import Stencil.Proofs.Grammar.Bodies
import Stencil.Proofs.Grammar.Bracket
import Stencil.Proofs.Grammar.Declarations
import Stencil.Proofs.Grammar.Depth
import Stencil.Proofs.Grammar.Ending
import Stencil.Proofs.Grammar.Entering
import Stencil.Proofs.Grammar.Lays
import Stencil.Proofs.Grammar.Nesting
import Stencil.Proofs.Grammar.Node
import Stencil.Proofs.Grammar.Outcome
import Stencil.Proofs.Grammar.Part
import Stencil.Proofs.Grammar.Passed
import Stencil.Proofs.Grammar.Placed
import Stencil.Proofs.Grammar.Plain
import Stencil.Proofs.Grammar.Production
import Stencil.Proofs.Grammar.Reads
import Stencil.Proofs.Grammar.Session
import Stencil.Proofs.Grammar.Shows
import Stencil.Proofs.Grammar.Stretch
import Stencil.Proofs.Grammar.Strict
import Stencil.Proofs.Grammar.Tiling
import Stencil.Proofs.Grammar.TypeRoundTrip
import Stencil.Proofs.Grammar.Types
import Stencil.Proofs.Grammar.Unit
import Stencil.Proofs.Guarded
import Stencil.Proofs.Joints
import Stencil.Proofs.Landmark
import Stencil.Proofs.Path
import Stencil.Proofs.PathOrder
import Stencil.Proofs.Primitive
import Stencil.Proofs.References
import Stencil.Proofs.Refusals
import Stencil.Proofs.Rewrite.Causes
import Stencil.Proofs.Rewrite.Chunks
import Stencil.Proofs.Rewrite.Comment
import Stencil.Proofs.Rewrite.CommentEnd
import Stencil.Proofs.Rewrite.CommentPieces
import Stencil.Proofs.Rewrite.CommentToken
import Stencil.Proofs.Rewrite.Copied
import Stencil.Proofs.Rewrite.Dissection
import Stencil.Proofs.Rewrite.Fits
import Stencil.Proofs.Rewrite.Free
import Stencil.Proofs.Rewrite.Gaps
import Stencil.Proofs.Rewrite.Identifier
import Stencil.Proofs.Rewrite.Keeps
import Stencil.Proofs.Rewrite.Laid
import Stencil.Proofs.Rewrite.LeftOut
import Stencil.Proofs.Rewrite.Marks
import Stencil.Proofs.Rewrite.Name
import Stencil.Proofs.Rewrite.Nests
import Stencil.Proofs.Rewrite.Omits
import Stencil.Proofs.Rewrite.Operation
import Stencil.Proofs.Rewrite.Parts
import Stencil.Proofs.Rewrite.Places
import Stencil.Proofs.Rewrite.Reconstruct
import Stencil.Proofs.Rewrite.Renamed
import Stencil.Proofs.Rewrite.Rendered
import Stencil.Proofs.Rewrite.SafeComment
import Stencil.Proofs.Rewrite.Sealed
import Stencil.Proofs.Rewrite.Seals
import Stencil.Proofs.Rewrite.Settled
import Stencil.Proofs.Rewrite.Slots
import Stencil.Proofs.Rewrite.Spots
import Stencil.Proofs.Rewrite.Traces
import Stencil.Proofs.Rewrite.Turns
import Stencil.Proofs.Rewrite.TypeText
import Stencil.Proofs.Rewrite.TypeTree
import Stencil.Proofs.Rewrite.Walk
import Stencil.Proofs.Rewrite.Writes
import Stencil.Proofs.Text.Substring
import Stencil.Proofs.Token.Apart
import Stencil.Proofs.Token.Joined
import Stencil.Proofs.Token.Lines
import Stencil.Proofs.Token.Lookahead
import Stencil.Proofs.Token.Lossless
import Stencil.Proofs.Token.Number
import Stencil.Proofs.Token.Quoted
import Stencil.Proofs.Token.Reading
import Stencil.Proofs.Token.Source
import Stencil.Proofs.Token.Spelled
import Stencil.Proofs.Token.Spelling
import Stencil.Proofs.Token.Strewn
import Stencil.Proofs.Token.Trail
import Stencil.Proofs.Token.Written
import Stencil.Proofs.Trivia
import Stencil.Proofs.Types
import Stencil.Proofs.Visit
import Stencil.Rewrite.Arguments
import Stencil.Rewrite.Comment
import Stencil.Rewrite.Edit
import Stencil.Rewrite.Error
import Stencil.Rewrite.Name
import Stencil.Rewrite.Operation
import Stencil.Rewrite.Outline
import Stencil.Rewrite.Walk
import Stencil.Template
import Stencil.Text.Elapsed
import Stencil.Text.Lines
import Stencil.Text.Quoted
import Stencil.Text.Substring
import Stencil.Token.Basic
import Stencil.Token.Debug
import Stencil.Token.Flaw
import Stencil.Token.Kind
import Stencil.Token.Scan
import Stencil.Token.Source
import Stencil.Token.Span
import Stencil.Token.Stream
import Stencil.Tree
import Stencil.Unicode.Alphabetic
import Stencil.Unicode.Class
import Stencil.Unicode.Combining
import Stencil.Unicode.Numeric
import Stencil.Unicode.Ranges
import Stencil.Unicode.Unprintable
import Stencil.Unicode.Uppercase
import Stencil.Visit
