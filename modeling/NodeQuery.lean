import NodeQuery.Catalog
import NodeQuery.Command.Arguments
import NodeQuery.Command.Run
import NodeQuery.Decimal.Layout
import NodeQuery.Decimal.Reading
import NodeQuery.Decimal.Shortest
import NodeQuery.Folder
import NodeQuery.Host.Compression
import NodeQuery.Host.Error
import NodeQuery.Host.Expansion
import NodeQuery.Host.Filter
import NodeQuery.Host.Name
import NodeQuery.Host.Pattern
import NodeQuery.Host.PatternList
import NodeQuery.Host.Segment
import NodeQuery.Json.Number
import NodeQuery.Json.Printer
import NodeQuery.Json.Reader
import NodeQuery.Json.Value
import NodeQuery.Lines
import NodeQuery.Main
import NodeQuery.Marks
import NodeQuery.Proofs.Host.Acceptance
import NodeQuery.Proofs.Host.Elements
import NodeQuery.Proofs.Host.Enumeration
import NodeQuery.Proofs.Host.Expansion
import NodeQuery.Proofs.Host.Filters
import NodeQuery.Proofs.Host.Grammar
import NodeQuery.Proofs.Host.Grouping
import NodeQuery.Proofs.Host.Limits
import NodeQuery.Proofs.Host.Lists
import NodeQuery.Proofs.Host.Matching
import NodeQuery.Proofs.Host.Names
import NodeQuery.Proofs.Host.Numbers
import NodeQuery.Proofs.Host.Products
import NodeQuery.Proofs.Host.RoundTrip
import NodeQuery.Proofs.Host.SetSizes
import NodeQuery.Proofs.Host.Sets
import NodeQuery.Proofs.Query.Acceptance
import NodeQuery.Proofs.Query.Aliases
import NodeQuery.Proofs.Query.Calls
import NodeQuery.Proofs.Query.Equivalence
import NodeQuery.Proofs.Query.Errors
import NodeQuery.Proofs.Query.Grammar
import NodeQuery.Proofs.Query.HostLists
import NodeQuery.Proofs.Query.Independence
import NodeQuery.Proofs.Query.Lexing
import NodeQuery.Proofs.Query.Meaning
import NodeQuery.Proofs.Query.Places
import NodeQuery.Proofs.Query.Resolution
import NodeQuery.Proofs.Query.Selection
import NodeQuery.Proofs.Query.Slices
import NodeQuery.Proofs.Query.Substitution
import NodeQuery.Proofs.Query.Tokens
import NodeQuery.Proofs.Query.Typing
import NodeQuery.Proofs.Query.Universe
import NodeQuery.Proofs.RowSet.Membership
import NodeQuery.Proofs.RowSet.Refinement
import NodeQuery.Proofs.RowSet.Universe
import NodeQuery.Proofs.RowSet.Views
import NodeQuery.Proofs.Text.Digits
import NodeQuery.Proofs.Text.Runs
import NodeQuery.Query.Compile
import NodeQuery.Query.Error
import NodeQuery.Query.Evaluation
import NodeQuery.Query.Expr
import NodeQuery.Query.Lexer
import NodeQuery.Query.Token
import NodeQuery.Query.Vocabulary
import NodeQuery.Record
import NodeQuery.RowSet
import NodeQuery.Settings.Basic
import NodeQuery.Settings.Loading
import NodeQuery.Settings.Text
import NodeQuery.Table
import NodeQuery.Text.Blank
import NodeQuery.Text.Pieces
import NodeQuery.Toml.Document
import NodeQuery.Toml.Moment
import NodeQuery.Toml.Quoted
import NodeQuery.Toml.Reader
import NodeQuery.Toml.Text
import NodeQuery.Toml.Value
import NodeQuery.Toml.Word
import NodeQuery.Proofs.Query.Histories
import NodeQuery.Proofs.Settings.Vocabulary
import NodeQuery.Proofs.Command.Failure
import NodeQuery.Proofs.Command.Selection
import NodeQuery.Proofs.Toml.Lines
import NodeQuery.Proofs.Settings.RoundTrip
import NodeQuery.Proofs.Host.Errors
import NodeQuery.Proofs.Host.Insertions
import NodeQuery.Proofs.Host.Commas
import NodeQuery.Proofs.Host.Canonical
import NodeQuery.Proofs.Command.Commas
import NodeQuery.Proofs.Host.Readings
import NodeQuery.Proofs.Host.Merging
import NodeQuery.Proofs.RowSet.Agreement
import NodeQuery.Proofs.RowSet.Laws
import NodeQuery.Proofs.Json.Locality
import NodeQuery.Proofs.Json.Containers
import NodeQuery.Proofs.Json.Invariants
import NodeQuery.Proofs.Json.Numbers
import NodeQuery.Proofs.Json.Printing
import NodeQuery.Proofs.Records
import NodeQuery.Proofs.Decimal.Nearest
import NodeQuery.Proofs.Decimal.Rounding
import NodeQuery.Proofs.Decimal.Printing
import NodeQuery.Proofs.Query.Rendering
import NodeQuery.Proofs.Command.Displays
