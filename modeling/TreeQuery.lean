import TreeQuery.ActionTree
import TreeQuery.ActionTree.Build
import TreeQuery.ActionTree.Json
import TreeQuery.ActionTree.Merge
import TreeQuery.ActionTree.Route
import TreeQuery.Calendar.Date
import TreeQuery.CommandLine.Display
import TreeQuery.CommandLine.Request
import TreeQuery.CommandLine.Run
import TreeQuery.Error
import TreeQuery.FieldPath
import TreeQuery.FileTree
import TreeQuery.Filter
import TreeQuery.JoinKind
import TreeQuery.Json
import TreeQuery.Json.Reader
import TreeQuery.Keyed
import TreeQuery.Main
import TreeQuery.Number.Binary64
import TreeQuery.Number.Bounds
import TreeQuery.Number.Reading
import TreeQuery.Number.Shortest
import TreeQuery.Number.Style
import TreeQuery.Operator
import TreeQuery.Path
import TreeQuery.Plan
import TreeQuery.Proofs.Aliases
import TreeQuery.Proofs.Bindings
import TreeQuery.Proofs.Blame
import TreeQuery.Proofs.BoundLists
import TreeQuery.Proofs.Building
import TreeQuery.Proofs.Compilation
import TreeQuery.Proofs.Completion
import TreeQuery.Proofs.Constraints
import TreeQuery.Proofs.DateText
import TreeQuery.Proofs.DocumentPaths
import TreeQuery.Proofs.Documents
import TreeQuery.Proofs.DottedFilters
import TreeQuery.Proofs.Everywhere
import TreeQuery.Proofs.FaultPlaces
import TreeQuery.Proofs.FilterText
import TreeQuery.Proofs.Grafting
import TreeQuery.Proofs.Grammar
import TreeQuery.Proofs.Idempotence
import TreeQuery.Proofs.Integers
import TreeQuery.Proofs.JoinConditions
import TreeQuery.Proofs.JoinKinds
import TreeQuery.Proofs.Json.Parts
import TreeQuery.Proofs.Json.RoundTrip
import TreeQuery.Proofs.Json.Tokens
import TreeQuery.Proofs.Limits
import TreeQuery.Proofs.ManyToMany
import TreeQuery.Proofs.Matching
import TreeQuery.Proofs.Merging
import TreeQuery.Proofs.Nesting
import TreeQuery.Proofs.ObjectKeys
import TreeQuery.Proofs.Outcome
import TreeQuery.Proofs.Parametricity
import TreeQuery.Proofs.Parsing
import TreeQuery.Proofs.PlanLevels
import TreeQuery.Proofs.Planning
import TreeQuery.Proofs.PushDown
import TreeQuery.Proofs.Rearranging
import TreeQuery.Proofs.Renaming
import TreeQuery.Proofs.Resolution
import TreeQuery.Proofs.Scanning
import TreeQuery.Proofs.Scope
import TreeQuery.Proofs.Searching
import TreeQuery.Proofs.Shape
import TreeQuery.Proofs.Spelling
import TreeQuery.Proofs.Sql.Expressions
import TreeQuery.Proofs.Sql.Glyphs
import TreeQuery.Proofs.Sql.Legibility
import TreeQuery.Proofs.Sql.Nesting
import TreeQuery.Proofs.Sql.Operands
import TreeQuery.Proofs.Sql.Params
import TreeQuery.Proofs.Sql.Parts
import TreeQuery.Proofs.Sql.Placeholders
import TreeQuery.Proofs.Sql.Reading
import TreeQuery.Proofs.Sql.Scope
import TreeQuery.Proofs.Sql.Shape
import TreeQuery.Proofs.Sql.Unique
import TreeQuery.Proofs.Sql.Writer
import TreeQuery.Proofs.Sufficiency
import TreeQuery.Proofs.Tiling
import TreeQuery.Proofs.WellFormed
import TreeQuery.Proofs.Windows
import TreeQuery.Query
import TreeQuery.Query.OfText
import TreeQuery.Registry
import TreeQuery.Registry.Document
import TreeQuery.Registry.JoinCondition
import TreeQuery.Registry.Json
import TreeQuery.Settings
import TreeQuery.Sql.Select
import TreeQuery.Sql.Statement
import TreeQuery.SyntaxTree
import TreeQuery.SyntaxTree.Reader
import TreeQuery.Text.Blank
import TreeQuery.Text.EditDistance
import TreeQuery.Text.Percent
import TreeQuery.Text.Printable
import TreeQuery.Text.Quoted
import TreeQuery.Text.Split
import TreeQuery.Text.Utf8
import TreeQuery.Token
import TreeQuery.Token.Lexer
import TreeQuery.Toml
import TreeQuery.Toml.Assembly
import TreeQuery.Toml.Number
import TreeQuery.Toml.Reader
import TreeQuery.Toml.Scan
import TreeQuery.Toml.Text
import TreeQuery.Validation
import TreeQuery.Value
