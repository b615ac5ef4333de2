import RubyLint.Calendar
import RubyLint.Calendar.Pattern
import RubyLint.CommandLine.Options
import RubyLint.CommandLine.Reading
import RubyLint.CommandLine.Run
import RubyLint.Config
import RubyLint.Config.Load
import RubyLint.Config.Save
import RubyLint.Dispatch
import RubyLint.Edit.Correction
import RubyLint.Edit.Diff
import RubyLint.Edit.Script
import RubyLint.Fault
import RubyLint.Files.Collect
import RubyLint.Files.Path
import RubyLint.Files.Tree
import RubyLint.Grammar
import RubyLint.Indexing
import RubyLint.Json
import RubyLint.Lint
import RubyLint.Log
import RubyLint.Main
import RubyLint.Number.Binary
import RubyLint.Number.Decimal
import RubyLint.Number.Reading
import RubyLint.Number.Significant
import RubyLint.Offense
import RubyLint.Pattern.Compile
import RubyLint.Pattern.Match
import RubyLint.Pattern.Predicate
import RubyLint.Pattern.Token
import RubyLint.Proofs.CommandLine.Status
import RubyLint.Proofs.CommandLine.Writing
import RubyLint.Proofs.Config
import RubyLint.Proofs.Config.Merge
import RubyLint.Proofs.Config.Saved
import RubyLint.Proofs.Dispatch.Independence
import RubyLint.Proofs.Dispatch.Listening
import RubyLint.Proofs.Dispatch.Run
import RubyLint.Proofs.Dispatch.Sequence
import RubyLint.Proofs.Dispatch.Trace
import RubyLint.Proofs.Edit.Arrangement
import RubyLint.Proofs.Edit.Carry
import RubyLint.Proofs.Edit.Characters
import RubyLint.Proofs.Edit.Columns
import RubyLint.Proofs.Edit.Correction
import RubyLint.Proofs.Edit.Ink
import RubyLint.Proofs.Edit.Positional
import RubyLint.Proofs.Edit.Reordered
import RubyLint.Proofs.Files.Collect
import RubyLint.Proofs.Files.Exclusion
import RubyLint.Proofs.Files.Path
import RubyLint.Proofs.Files.Tree
import RubyLint.Proofs.Files.Walk
import RubyLint.Proofs.Lint
import RubyLint.Proofs.Lint.Alike
import RubyLint.Proofs.Lint.Shown
import RubyLint.Proofs.Lookup
import RubyLint.Proofs.Offense
import RubyLint.Proofs.Pattern.Captures
import RubyLint.Proofs.Pattern.Compiled
import RubyLint.Proofs.Pattern.Excerpts
import RubyLint.Proofs.Pattern.Grammar
import RubyLint.Proofs.Pattern.Lexemes
import RubyLint.Proofs.Pattern.Located
import RubyLint.Proofs.Pattern.Marks
import RubyLint.Proofs.Pattern.Matching
import RubyLint.Proofs.Pattern.Placement
import RubyLint.Proofs.Pattern.Rendering
import RubyLint.Proofs.Pattern.Semantics
import RubyLint.Proofs.Pattern.Sources
import RubyLint.Proofs.Registry
import RubyLint.Proofs.Registry.History
import RubyLint.Proofs.Report
import RubyLint.Proofs.Ruby.Reparse
import RubyLint.Proofs.Ruby.Shape
import RubyLint.Proofs.Ruby.Statements
import RubyLint.Proofs.Rule.Options
import RubyLint.Proofs.Rule.Outcome
import RubyLint.Proofs.Rule.Reporting
import RubyLint.Proofs.Rules.Bare
import RubyLint.Proofs.Rules.Breaks
import RubyLint.Proofs.Rules.ChainBreaks
import RubyLint.Proofs.Rules.Chains
import RubyLint.Proofs.Rules.Composition
import RubyLint.Proofs.Rules.Corrected
import RubyLint.Proofs.Rules.FixedPoint
import RubyLint.Proofs.Rules.GroupScans
import RubyLint.Proofs.Rules.Harmless
import RubyLint.Proofs.Rules.Landing
import RubyLint.Proofs.Rules.Layout
import RubyLint.Proofs.Rules.Moves
import RubyLint.Proofs.Rules.Parentheses
import RubyLint.Proofs.Rules.Redefinition
import RubyLint.Proofs.Rules.Reparsed
import RubyLint.Proofs.Rules.WrapArguments
import RubyLint.Proofs.Rules.Written
import RubyLint.Proofs.Schema
import RubyLint.Proofs.Sorting
import RubyLint.Proofs.Steps
import RubyLint.Proofs.Suppression
import RubyLint.Proofs.Suppression.Lines
import RubyLint.Proofs.Suppression.Occurrences
import RubyLint.Proofs.Text.Class
import RubyLint.Proofs.Text.Glob
import RubyLint.Proofs.Text.LineIndex
import RubyLint.Proofs.Text.Lines
import RubyLint.Proofs.Text.Position
import RubyLint.Proofs.Text.Template
import RubyLint.Proofs.Text.Utf8
import RubyLint.Proofs.Tree.Ancestry
import RubyLint.Proofs.Tree.Construction
import RubyLint.Proofs.Tree.Failure
import RubyLint.Proofs.Tree.Faults
import RubyLint.Proofs.Tree.Navigation
import RubyLint.Proofs.Tree.Place
import RubyLint.Proofs.Tree.Preorder
import RubyLint.Proofs.Tree.Siblings
import RubyLint.Proofs.Value.Plain
import RubyLint.Proofs.Value.Table
import RubyLint.Registry
import RubyLint.Report
import RubyLint.Report.Entry
import RubyLint.Ruby.Call
import RubyLint.Rule.Basic
import RubyLint.Rule.Memory
import RubyLint.Rule.Scripted
import RubyLint.Rules.ChainBreaks
import RubyLint.Rules.NestedContext
import RubyLint.Rules.Redefinition
import RubyLint.Rules.Shipped
import RubyLint.Rules.WrapArguments
import RubyLint.Schema
import RubyLint.Suppression
import RubyLint.Text.Base64
import RubyLint.Text.CaseTable
import RubyLint.Text.Class
import RubyLint.Text.Glob
import RubyLint.Text.LineIndex
import RubyLint.Text.Lines
import RubyLint.Text.Lower
import RubyLint.Text.PrintableTable
import RubyLint.Text.Quoted
import RubyLint.Text.Search
import RubyLint.Text.Surrogate
import RubyLint.Text.Template
import RubyLint.Text.Template.Fault
import RubyLint.Text.Template.Format
import RubyLint.Text.Template.Item
import RubyLint.Text.Utf8
import RubyLint.Text.WordTable
import RubyLint.Tree.Document
import RubyLint.Tree.Forest
import RubyLint.Tree.Node
import RubyLint.Tree.Parsed
import RubyLint.Value
import RubyLint.Value.Use
import RubyLint.Yaml.Build
import RubyLint.Yaml.Node
import RubyLint.Yaml.Scalar
import RubyLint.Yaml.Scanner
import RubyLint.Yaml.Source
import RubyLint.Yaml.Tag
import RubyLint.Yaml.Token
import RubyLint.Yaml.Typed
import RubyLint.Yaml.Write
