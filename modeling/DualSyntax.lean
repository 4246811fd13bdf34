import DualSyntax.CSharp.Declarations
import DualSyntax.CSharp.Expressions
import DualSyntax.CSharp.Form
import DualSyntax.CSharp.Rules
import DualSyntax.CSharp.Shapes
import DualSyntax.CSharp.Spelling
import DualSyntax.CSharp.Statements
import DualSyntax.CSharp.Writer
import DualSyntax.CommandLine
import DualSyntax.CommandLine.Files
import DualSyntax.Decimal.Notation
import DualSyntax.Decimal.Reading
import DualSyntax.Decimal.Remainder
import DualSyntax.Decimal.Shortest
import DualSyntax.Diagnostic.Report
import DualSyntax.Diagnostic.Syntactic
import DualSyntax.Forest.Agree
import DualSyntax.Forest.Basic
import DualSyntax.Forest.Edit
import DualSyntax.Forest.Walk
import DualSyntax.Forest.Workbench
import DualSyntax.Grammar.Basic
import DualSyntax.Grammar.Packrat
import DualSyntax.Grammar.RawTree
import DualSyntax.Grammar.Rule
import DualSyntax.Grammar.Shape
import DualSyntax.Json
import DualSyntax.Json.Skip
import DualSyntax.Language.Basic
import DualSyntax.Language.Words
import DualSyntax.Lexing.CSharp
import DualSyntax.Lexing.Fault
import DualSyntax.Lexing.Lexeme
import DualSyntax.Lexing.Tokenize
import DualSyntax.Lexing.VisualBasic
import DualSyntax.Lowering.Comments
import DualSyntax.Lowering.Declarators
import DualSyntax.Lowering.Draft
import DualSyntax.Lowering.Parts
import DualSyntax.Lowering.Shapes
import DualSyntax.Main
import DualSyntax.Node.Kind
import DualSyntax.Node.KnownType
import DualSyntax.Node.Modifier
import DualSyntax.Node.Operator
import DualSyntax.Node.Title
import DualSyntax.Output
import DualSyntax.Parsing
import DualSyntax.Proofs.Decimal.Numbers
import DualSyntax.Proofs.Diagnostic.Rendering
import DualSyntax.Proofs.Expression.CSharpCasts
import DualSyntax.Proofs.Expression.CSharpLevels
import DualSyntax.Proofs.Expression.CSharpLexing
import DualSyntax.Proofs.Expression.CSharpOperands
import DualSyntax.Proofs.Expression.CSharpOperators
import DualSyntax.Proofs.Expression.CSharpPieces
import DualSyntax.Proofs.Expression.CSharpRoundTrip
import DualSyntax.Proofs.Expression.CSharpWriting
import DualSyntax.Proofs.Forest.Agree
import DualSyntax.Proofs.Forest.Copies
import DualSyntax.Proofs.Forest.Data
import DualSyntax.Proofs.Forest.Edits
import DualSyntax.Proofs.Forest.Equivalence
import DualSyntax.Proofs.Forest.Extensions
import DualSyntax.Proofs.Forest.Links
import DualSyntax.Proofs.Forest.Mirror
import DualSyntax.Proofs.Forest.Regular
import DualSyntax.Proofs.Forest.Roots
import DualSyntax.Proofs.Forest.Traversals
import DualSyntax.Proofs.Forest.Walks
import DualSyntax.Proofs.Grammar.Outlook
import DualSyntax.Proofs.Grammar.Words
import DualSyntax.Proofs.Lexing.Definite
import DualSyntax.Proofs.Lexing.EscapedStrings
import DualSyntax.Proofs.Lexing.FaultSpans
import DualSyntax.Proofs.Lexing.Integers
import DualSyntax.Proofs.Lexing.LineBreaks
import DualSyntax.Proofs.Lexing.LiteralTexts
import DualSyntax.Proofs.Lexing.Lossless
import DualSyntax.Proofs.Lexing.Meaning
import DualSyntax.Proofs.Lexing.Names
import DualSyntax.Proofs.Lexing.Progress
import DualSyntax.Proofs.Lowering.Additions
import DualSyntax.Proofs.Lowering.Agreement
import DualSyntax.Proofs.Lowering.Arrays
import DualSyntax.Proofs.Lowering.Blocks
import DualSyntax.Proofs.Lowering.Chaining
import DualSyntax.Proofs.Lowering.DeclaredVariables
import DualSyntax.Proofs.Lowering.Declaring
import DualSyntax.Proofs.Lowering.Effects
import DualSyntax.Proofs.Lowering.Fitting
import DualSyntax.Proofs.Lowering.Giving
import DualSyntax.Proofs.Lowering.HeldTypes
import DualSyntax.Proofs.Lowering.InnerParts
import DualSyntax.Proofs.Lowering.InnerShapes
import DualSyntax.Proofs.Lowering.Namespaces
import DualSyntax.Proofs.Lowering.Nested
import DualSyntax.Proofs.Lowering.OperatorChains
import DualSyntax.Proofs.Lowering.ParsedForests
import DualSyntax.Proofs.Lowering.ParsedNamespaces
import DualSyntax.Proofs.Lowering.ParsedVariables
import DualSyntax.Proofs.Lowering.Reading
import DualSyntax.Proofs.Lowering.SuitedParts
import DualSyntax.Proofs.Lowering.Suiting
import DualSyntax.Proofs.Lowering.Survey
import DualSyntax.Proofs.Lowering.Tellings
import DualSyntax.Proofs.Lowering.Total
import DualSyntax.Proofs.Lowering.Warnings
import DualSyntax.Proofs.Mirroring.Drafts
import DualSyntax.Proofs.Mirroring.Parts
import DualSyntax.Proofs.Mirroring.Shapes
import DualSyntax.Proofs.Packrat.Alternation
import DualSyntax.Proofs.Packrat.Conforming
import DualSyntax.Proofs.Packrat.Coverage
import DualSyntax.Proofs.Packrat.Fuel
import DualSyntax.Proofs.Packrat.Kinds
import DualSyntax.Proofs.Packrat.LeftCalls
import DualSyntax.Proofs.Packrat.Matching
import DualSyntax.Proofs.Packrat.MemoFree
import DualSyntax.Proofs.Packrat.Refusals
import DualSyntax.Proofs.Packrat.Reports
import DualSyntax.Proofs.Packrat.Requests
import DualSyntax.Proofs.Parsing.CaseInsensitive
import DualSyntax.Proofs.Parsing.Formatting
import DualSyntax.Proofs.Parsing.SyntaxErrors
import DualSyntax.Proofs.Parsing.Yields
import DualSyntax.Proofs.RoundTrip.Cast
import DualSyntax.Proofs.RoundTrip.EscapedWords
import DualSyntax.Proofs.RoundTrip.Literals
import DualSyntax.Proofs.RoundTrip.Names
import DualSyntax.Proofs.Semantics.Agreeing
import DualSyntax.Proofs.Semantics.Arithmetic
import DualSyntax.Proofs.Semantics.BaseLists
import DualSyntax.Proofs.Semantics.Casing
import DualSyntax.Proofs.Semantics.Conversions
import DualSyntax.Proofs.Semantics.DeclaredNames
import DualSyntax.Proofs.Semantics.Ensuring
import DualSyntax.Proofs.Semantics.IntegerTrees
import DualSyntax.Proofs.Semantics.LaterStatements
import DualSyntax.Proofs.Semantics.NamespaceScopes
import DualSyntax.Proofs.Semantics.Overflow
import DualSyntax.Proofs.Semantics.OverloadChoice
import DualSyntax.Proofs.Semantics.Ranges
import DualSyntax.Proofs.Semantics.Resolving
import DualSyntax.Proofs.Semantics.Searching
import DualSyntax.Proofs.Semantics.Spellings
import DualSyntax.Proofs.Semantics.Termination
import DualSyntax.Proofs.Semantics.ViewedMeanings
import DualSyntax.Proofs.Semantics.ViewedNames
import DualSyntax.Proofs.Semantics.Views
import DualSyntax.Proofs.Text.Lines
import DualSyntax.Proofs.Writing.CSharpLayout
import DualSyntax.Proofs.Writing.CountingLoops
import DualSyntax.Proofs.Writing.LaidOut
import DualSyntax.Proofs.Writing.Layouts
import DualSyntax.Proofs.Writing.Lines
import DualSyntax.Proofs.Writing.NestedSpans
import DualSyntax.Proofs.Writing.Printed
import DualSyntax.Proofs.Writing.VisualBasicLayout
import DualSyntax.Semantics
import DualSyntax.Semantics.Constant
import DualSyntax.Semantics.Declarations
import DualSyntax.Semantics.Definition
import DualSyntax.Semantics.Describe
import DualSyntax.Semantics.Lookup
import DualSyntax.Semantics.Meaning
import DualSyntax.Semantics.Names
import DualSyntax.Semantics.Overloads
import DualSyntax.Semantics.Resolution
import DualSyntax.Style
import DualSyntax.Text.Blank
import DualSyntax.Text.Position
import DualSyntax.Text.Printable
import DualSyntax.Text.Quoted
import DualSyntax.Token.Kind
import DualSyntax.Token.Stream
import DualSyntax.Token.Value
import DualSyntax.VisualBasic.CountingLoop
import DualSyntax.VisualBasic.Declarations
import DualSyntax.VisualBasic.Expressions
import DualSyntax.VisualBasic.Form
import DualSyntax.VisualBasic.Rules
import DualSyntax.VisualBasic.Shapes
import DualSyntax.VisualBasic.Spelling
import DualSyntax.VisualBasic.Statements
import DualSyntax.VisualBasic.Writer
import DualSyntax.Writing
import DualSyntax.Writing.Layout
