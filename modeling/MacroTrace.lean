import MacroTrace.Main
import MacroTrace.Proofs.Splice
import MacroTrace.Proofs.Literal
import MacroTrace.Proofs.WellFormed
import MacroTrace.Proofs.Invocation
import MacroTrace.Proofs.Argument
import MacroTrace.Proofs.Extent
import MacroTrace.Proofs.Passes
import MacroTrace.Proofs.Evaluation
import MacroTrace.Proofs.Trace
import MacroTrace.Proofs.Reduction
import MacroTrace.Proofs.Occurrence
import MacroTrace.Proofs.Paste
import MacroTrace.Proofs.Outline
import MacroTrace.Proofs.NormalForm
import MacroTrace.Proofs.Thinning
import MacroTrace.Proofs.Callback
import MacroTrace.Proofs.Operand
import MacroTrace.Proofs.Preservation
import MacroTrace.Proofs.Context
import MacroTrace.Proofs.Frame
import MacroTrace.Proofs.FrameCandidates
import MacroTrace.Proofs.FramePass
import MacroTrace.Proofs.FrameRun
import MacroTrace.Proofs.Wrapping
import MacroTrace.Proofs.History
import MacroTrace.Proofs.Detection
import MacroTrace.Proofs.Piece
import MacroTrace.Proofs.Provenance
import MacroTrace.Proofs.Layers
import MacroTrace.Proofs.DepthLimit
import MacroTrace.Proofs.Blanking
import MacroTrace.Proofs.Position
import MacroTrace.Proofs.Report
import MacroTrace.Proofs.Pointing
import MacroTrace.Proofs.Spelling
import MacroTrace.Proofs.UndefinedUse
import MacroTrace.Proofs.Branching
import MacroTrace.Proofs.FileTree
import MacroTrace.Proofs.Rescanning
import MacroTrace.Proofs.DefineLines
import MacroTrace.Proofs.OverlookedLines
import MacroTrace.Proofs.ArgumentList
import MacroTrace.Proofs.Laminar
import MacroTrace.Proofs.OperatorRemoval
import MacroTrace.Proofs.Cleaning
import MacroTrace.Proofs.Tiling
import MacroTrace.Proofs.ArgumentCount
import MacroTrace.Proofs.PositionLookup
import MacroTrace.Proofs.DirectiveLines
import MacroTrace.Proofs.CommentRemoval
import MacroTrace.Proofs.DefinedNames
import MacroTrace.Proofs.ProvenanceMap
import MacroTrace.Proofs.Stringification
import MacroTrace.Proofs.Enumeration
import MacroTrace.Proofs.ExpansionCache
import MacroTrace.Proofs.TypedefNames
import MacroTrace.Proofs.LiteralMembership
