import ParamLint.Text.CodePoint
import ParamLint.Text.Utf16
import ParamLint.Text.Utf8
import ParamLint.Text.Lines
import ParamLint.Text.Digit
import ParamLint.Text.Entries
import ParamLint.Number.Integer
import ParamLint.Main
import ParamLint.Number.Binary64
import ParamLint.Number.Shortest
import ParamLint.Number.Name
import ParamLint.Json.Value
import ParamLint.Json.Reader
import ParamLint.Json.Printer
import ParamLint.Syntax.Node
import ParamLint.Syntax.Position
import ParamLint.Syntax.Source
import ParamLint.Key.Escape
import ParamLint.Key.Name
import ParamLint.Site.Basic
import ParamLint.Site.OfTree
import ParamLint.Text.Quoted
import ParamLint.Rule.Configuration
import ParamLint.Rule.Exemption
import ParamLint.Rule.Verdict
import ParamLint.Rule.Diagnostic
import ParamLint.Config.Options
import ParamLint.Syntax.Dialect
import ParamLint.Syntax.Cursor
import ParamLint.Syntax.Lexeme
import ParamLint.Syntax.Semicolon
import ParamLint.Syntax.Reader
import ParamLint.Syntax.Parameter
import ParamLint.Syntax.Type
import ParamLint.Syntax.Bracket
import ParamLint.Syntax.Callable
import ParamLint.Syntax.Target
import ParamLint.Syntax.Operator
import ParamLint.Syntax.Expression
import ParamLint.Syntax.Markup
import ParamLint.Syntax.Statement
import ParamLint.Syntax.Parse
import ParamLint.Path.Basic
import ParamLint.Path.Wildcard
import ParamLint.Path.Glob
import ParamLint.Run.Journal
import ParamLint.Run.Source
import ParamLint.Text.Blank
import ParamLint.Path.Absolute
import ParamLint.Path.Encoding
import ParamLint.Files.Tree
import ParamLint.Config.File
import ParamLint.Git.Changes
import ParamLint.Run.Discovery
import ParamLint.Run.Project
import ParamLint.CommandLine.Usage
import ParamLint.CommandLine.Token
import ParamLint.CommandLine.Arguments
import ParamLint.CommandLine.Run
import ParamLint.Proofs.Pointwise
import ParamLint.Proofs.Boundaries
import ParamLint.Proofs.DocumentOrder
import ParamLint.Proofs.KeyOverflow
import ParamLint.Proofs.Findings
import ParamLint.Proofs.Discovery
import ParamLint.Proofs.Run
import ParamLint.Proofs.Accounting
import ParamLint.Proofs.Returning
import ParamLint.Proofs.Monotone
import ParamLint.Proofs.Descent
import ParamLint.Proofs.SameSite
import ParamLint.Proofs.IgnoredNames
import ParamLint.Proofs.Comments
import ParamLint.Proofs.Retyping
import ParamLint.Proofs.Changes
import ParamLint.Proofs.Selection
import ParamLint.Proofs.Options
import ParamLint.Proofs.Overrides
import ParamLint.Proofs.Spelling
import ParamLint.Proofs.Globs
import ParamLint.Proofs.Naming
import ParamLint.Proofs.Numerals
import ParamLint.Proofs.Surrogates
import ParamLint.Proofs.StringValues
import ParamLint.Proofs.Rounding
import ParamLint.Proofs.DecimalValues
import ParamLint.Proofs.IntegerNames
import ParamLint.Proofs.RoundingInterval
import ParamLint.Proofs.DecimalGrids
import ParamLint.Proofs.ShortestDigits
import ParamLint.Proofs.NumberLayout
import ParamLint.Proofs.NumberRoundTrip
import ParamLint.Proofs.ExactIntegers
import ParamLint.Proofs.Parentheses
import ParamLint.Proofs.Validation
import ParamLint.Proofs.JsonStrings
import ParamLint.Proofs.JsonNumbers
import ParamLint.Proofs.JsonValues
import ParamLint.Proofs.JsonFaults
import ParamLint.Proofs.Decoding
import ParamLint.Proofs.Loading
import ParamLint.Proofs.Merging
import ParamLint.Proofs.DiscoveryOrder
import ParamLint.Proofs.SiteShapes
import ParamLint.Proofs.SiteOrder
import ParamLint.Proofs.OwnDialect
import ParamLint.Proofs.JsonRoundTrip
import ParamLint.Proofs.Reports
import ParamLint.Proofs.PathSpellings
import ParamLint.Proofs.JoinedText
import ParamLint.Proofs.EqualKeys
