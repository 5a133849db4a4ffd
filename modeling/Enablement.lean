import Enablement.Element.Tree
import Enablement.Expr.Growing
import Enablement.Expr.Sharing
import Enablement.Proofs.Access.Asks
import Enablement.Proofs.Access.Collecting
import Enablement.Proofs.Access.Laws
import Enablement.Proofs.Access.Looks
import Enablement.Proofs.Act
import Enablement.Proofs.Argument.Doubling
import Enablement.Proofs.Argument.Pieces
import Enablement.Proofs.Argument.Written
import Enablement.Proofs.Conversion.Extending
import Enablement.Proofs.Conversion.Grammar
import Enablement.Proofs.Conversion.Outcome
import Enablement.Proofs.Conversion.Readings
import Enablement.Proofs.Conversion.Standard
import Enablement.Proofs.Definitions
import Enablement.Proofs.Definitions.Latest
import Enablement.Proofs.Document.Copies
import Enablement.Proofs.Document.Forest
import Enablement.Proofs.Document.Links
import Enablement.Proofs.Document.Walks
import Enablement.Proofs.Element.Copies
import Enablement.Proofs.Element.Documents
import Enablement.Proofs.Element.Nodes
import Enablement.Proofs.Evaluation.Abreast
import Enablement.Proofs.Evaluation.Agreement
import Enablement.Proofs.Evaluation.Answers
import Enablement.Proofs.Evaluation.Blind
import Enablement.Proofs.Evaluation.Converted
import Enablement.Proofs.Evaluation.Depth
import Enablement.Proofs.Evaluation.Discipline
import Enablement.Proofs.Evaluation.Evolution
import Enablement.Proofs.Evaluation.Inlining
import Enablement.Proofs.Evaluation.Interchange
import Enablement.Proofs.Evaluation.Iteration
import Enablement.Proofs.Evaluation.Journal
import Enablement.Proofs.Evaluation.Keeps
import Enablement.Proofs.Evaluation.Later
import Enablement.Proofs.Evaluation.Parallel
import Enablement.Proofs.Evaluation.Reads
import Enablement.Proofs.Evaluation.Reset
import Enablement.Proofs.Evaluation.Respectful
import Enablement.Proofs.Evaluation.Reuse
import Enablement.Proofs.Evaluation.Rewriting
import Enablement.Proofs.Evaluation.Stability
import Enablement.Proofs.Evaluation.Sticky
import Enablement.Proofs.Evaluation.SystemProperties
import Enablement.Proofs.Evaluation.Visits
import Enablement.Proofs.Expr.Children
import Enablement.Proofs.Expr.Equality
import Enablement.Proofs.Expr.Equivalence
import Enablement.Proofs.Expr.Growth
import Enablement.Proofs.Expr.Linkage
import Enablement.Proofs.Expr.Memo
import Enablement.Proofs.Expr.Replacing
import Enablement.Proofs.Json.Tokens
import Enablement.Proofs.Json.Written
import Enablement.Proofs.Number.Compare
import Enablement.Proofs.Number.Exact
import Enablement.Proofs.Number.Integral
import Enablement.Proofs.Number.Reals
import Enablement.Proofs.Number.Rounding
import Enablement.Proofs.Platform.Subtypes
import Enablement.Proofs.Rank
import Enablement.Proofs.Recency
import Enablement.Proofs.Recency.Touches
import Enablement.Proofs.Registry.Blind
import Enablement.Proofs.Registry.Cache
import Enablement.Proofs.Registry.Depth
import Enablement.Proofs.Registry.Extensions
import Enablement.Proofs.Registry.FirstMatch
import Enablement.Proofs.Registry.Hierarchy
import Enablement.Proofs.Registry.History
import Enablement.Proofs.Registry.Invariant
import Enablement.Proofs.Registry.Pinned
import Enablement.Proofs.Registry.Reachable
import Enablement.Proofs.Registry.Remembered
import Enablement.Proofs.Registry.Requests
import Enablement.Proofs.Registry.Resolve
import Enablement.Proofs.Registry.Run
import Enablement.Proofs.Registry.Search
import Enablement.Proofs.Registry.Slots
import Enablement.Proofs.Registry.Static
import Enablement.Proofs.Registry.Steps
import Enablement.Proofs.Registry.Survivors
import Enablement.Proofs.Registry.Testers
import Enablement.Proofs.Results
import Enablement.Proofs.Scope.Frames
import Enablement.Proofs.Scope.Nesting
import Enablement.Proofs.Tester.Listed
import Enablement.Proofs.Value.Collected
import Enablement.Proofs.Value.Congruence
import Enablement.Proofs.Value.Displayed
import Enablement.Proofs.Value.Order
import Enablement.Session
import Enablement.Value.Document
