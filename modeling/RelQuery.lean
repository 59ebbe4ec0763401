import RelQuery.Text.Blank
import RelQuery.Text.Quoted
import RelQuery.Text.Identifier
import RelQuery.Decimal.Notation
import RelQuery.Decimal.Numeral
import RelQuery.Calendar.Reading
import RelQuery.Document.Printer
import RelQuery.Document.Reader
import RelQuery.Schema.Decode
import RelQuery.Schema.Build
import RelQuery.Schema.Environment
import RelQuery.Path
import RelQuery.Expression
import RelQuery.Filter.Compile
import RelQuery.Plan.Merge
import RelQuery.Include.Planner
import RelQuery.Plan.Compose
import RelQuery.Events
import RelQuery.Selection.Decode
import RelQuery.Statement.Batch
import RelQuery.Plan.Document
import RelQuery.Rows.Cell
import RelQuery.Rows.Load
import RelQuery.Console
import RelQuery.Main
import RelQuery.Proofs.Filter.Value
import RelQuery.Proofs.Filter.Reading
import RelQuery.Proofs.Filter.MergeValue
import RelQuery.Proofs.Filter.Leaves
import RelQuery.Proofs.Filter.Canonical
import RelQuery.Proofs.Schema.Sound
import RelQuery.Proofs.Include.Planner
import RelQuery.Proofs.Plan.Planned
import RelQuery.Proofs.Plan.Scope
import RelQuery.Proofs.Plan.MergeComm
import RelQuery.Proofs.Plan.Executable
import RelQuery.Proofs.Plan.Asked
import RelQuery.Proofs.Plan.Correlation
import RelQuery.Proofs.Rows.Identity
import RelQuery.Proofs.Rows.Unjoin
import RelQuery.Proofs.Rows.Owned
import RelQuery.Proofs.Rows.Shape
import RelQuery.Proofs.Filter.Conditional
import RelQuery.Proofs.Filter.WellFormed
import RelQuery.Proofs.Plan.Guard
import RelQuery.Proofs.Plan.Changed
import RelQuery.Proofs.Plan.RowList
import RelQuery.Proofs.Plan.Lowered
import RelQuery.Proofs.Expression.Spelling
import RelQuery.Proofs.Statement.Masked
import RelQuery.Proofs.Statement.ReadBack
import RelQuery.Proofs.Filter.Literals
import RelQuery.Proofs.Filter.Recorded
import RelQuery.Proofs.Plan.TableNames
import RelQuery.Proofs.Include.Added
import RelQuery.Proofs.Plan.Counted
import RelQuery.Proofs.Plan.Keys
import RelQuery.Proofs.Plan.Transparent
import RelQuery.Proofs.Schema.Accepted
import RelQuery.Proofs.Plan.InnerJoins
import RelQuery.Proofs.Plan.SelectLists
import RelQuery.Proofs.Plan.Columns
import RelQuery.Proofs.Schema.FieldNames
import RelQuery.Proofs.Plan.Matched
import RelQuery.Proofs.Selection.Expanded
import RelQuery.Proofs.Filter.Regrouped
import RelQuery.Proofs.Plan.Grouped
import RelQuery.Proofs.Filter.Patterns
import RelQuery.Proofs.Filter.Elements
import RelQuery.Proofs.Filter.Integers
import RelQuery.Proofs.Path.Resolved
import RelQuery.Proofs.Selection.Arguments
import RelQuery.Proofs.Statement.InDocument
import RelQuery.Proofs.Computed.Qualified
import RelQuery.Proofs.Plan.Limits
import RelQuery.Proofs.Include.Attached
import RelQuery.Proofs.Rows.Refilled
