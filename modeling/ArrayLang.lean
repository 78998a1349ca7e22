import ArrayLang.Library.Core
import ArrayLang.Library.Stock
import ArrayLang.Proofs.Domain.Content
import ArrayLang.Proofs.Domain.MissingChildren
import ArrayLang.Proofs.Domain.Sides
import ArrayLang.Proofs.Evaluation.Asking
import ArrayLang.Proofs.Evaluation.Callers
import ArrayLang.Proofs.Evaluation.Calls
import ArrayLang.Proofs.Evaluation.Constants
import ArrayLang.Proofs.Evaluation.Control
import ArrayLang.Proofs.Evaluation.Dangling
import ArrayLang.Proofs.Evaluation.Handles
import ArrayLang.Proofs.Evaluation.Licence
import ArrayLang.Proofs.Evaluation.Limit
import ArrayLang.Proofs.Evaluation.Panics
import ArrayLang.Proofs.Evaluation.Paths
import ArrayLang.Proofs.Evaluation.Places
import ArrayLang.Proofs.Evaluation.RightToLeft
import ArrayLang.Proofs.Evaluation.Shapes
import ArrayLang.Proofs.Evaluation.Spans
import ArrayLang.Proofs.Evaluation.StatementOrder
import ArrayLang.Proofs.Evaluation.Totality
import ArrayLang.Proofs.Files.Containment
import ArrayLang.Proofs.Files.Reading
import ArrayLang.Proofs.Files.Spellings
import ArrayLang.Proofs.Files.Transparency
import ArrayLang.Proofs.Files.Trees
import ArrayLang.Proofs.Library.Arrays
import ArrayLang.Proofs.Library.Core
import ArrayLang.Proofs.Registry.Dispatch
import ArrayLang.Proofs.Registry.Reports
import ArrayLang.Proofs.Registry.Valence
import ArrayLang.Proofs.Scopes.Activations
import ArrayLang.Proofs.Scopes.Arguments
import ArrayLang.Proofs.Scopes.Frame
import ArrayLang.Proofs.Scopes.Growth
import ArrayLang.Proofs.Scopes.Shadowing
import ArrayLang.Proofs.Selection.Addresses
import ArrayLang.Proofs.Selection.Assignment
import ArrayLang.Proofs.Selection.Cells
import ArrayLang.Proofs.Selection.Order
import ArrayLang.Proofs.Selection.ReadBack
import ArrayLang.Proofs.Selection.Stores
import ArrayLang.Proofs.Source.Allocations
import ArrayLang.Proofs.Source.ChildrenFirst
import ArrayLang.Proofs.Source.Grouping
import ArrayLang.Proofs.Source.Naming
import ArrayLang.Proofs.Text.Numbers
import ArrayLang.Proofs.Value.Equality
import ArrayLang.Proofs.Value.HighMinus
import ArrayLang.Registry.Basic
