import ExprLang.Binary64
import ExprLang.Command
import ExprLang.ContextClass
import ExprLang.Decimal.Digits
import ExprLang.Decimal.Fixed
import ExprLang.Decimal.Printer
import ExprLang.Decimal.Reader
import ExprLang.Decimal.Shortest
import ExprLang.Delimiter
import ExprLang.Diagnostics.Lines
import ExprLang.Diagnostics.Log
import ExprLang.Diagnostics.Report
import ExprLang.Forest.Basic
import ExprLang.Forest.Content
import ExprLang.Forest.Flatten
import ExprLang.Forest.Outline
import ExprLang.Forest.Tree
import ExprLang.Grammar
import ExprLang.Grouping.Application
import ExprLang.Grouping.Path
import ExprLang.Grouping.Run
import ExprLang.Host.Basic
import ExprLang.Host.Store
import ExprLang.Language
import ExprLang.Lexer
import ExprLang.Literal
import ExprLang.Main
import ExprLang.Numeral
import ExprLang.Operator
import ExprLang.Options
import ExprLang.Program
import ExprLang.Proofs.Diagnostics.LineTexts
import ExprLang.Proofs.Flattening.LeafTokens
import ExprLang.Proofs.Forest.Arena
import ExprLang.Proofs.Forest.Collapse
import ExprLang.Proofs.Forest.Leaves
import ExprLang.Proofs.Grammar.Brackets
import ExprLang.Proofs.Grouping.Chains
import ExprLang.Proofs.Grouping.Clauses
import ExprLang.Proofs.Grouping.Conditionals
import ExprLang.Proofs.Grouping.NodeTexts
import ExprLang.Proofs.Grouping.Outcome
import ExprLang.Proofs.Grouping.Placement
import ExprLang.Proofs.Grouping.Repetition
import ExprLang.Proofs.Grouping.Structure
import ExprLang.Proofs.Lexing.Bounds
import ExprLang.Proofs.Lexing.Brackets
import ExprLang.Proofs.Lexing.Interruption
import ExprLang.Proofs.Lexing.Numbers
import ExprLang.Proofs.Lexing.Placement
import ExprLang.Proofs.Lexing.Progress
import ExprLang.Proofs.Lexing.Strays
import ExprLang.Proofs.Lexing.Unclosed
import ExprLang.Proofs.Resolution.CallOrder
import ExprLang.Proofs.Resolution.Comments
import ExprLang.Proofs.Resolution.Data
import ExprLang.Proofs.Resolution.Failures
import ExprLang.Proofs.Resolution.MemberChains
import ExprLang.Proofs.Resolution.Parentheses
import ExprLang.Proofs.Resolution.Partial
import ExprLang.Proofs.Resolution.Placement
import ExprLang.Proofs.Resolution.Reports
import ExprLang.Proofs.Resolution.TextLiterals
import ExprLang.Proofs.Resolution.UnknownCalls
import ExprLang.Proofs.RuleSet.BestMatch
import ExprLang.Proofs.RuleSet.Inheritance
import ExprLang.Proofs.Value.Comparisons
import ExprLang.Proofs.Value.Integers
import ExprLang.Proofs.Value.Places
import ExprLang.Proofs.Value.Repetitions
import ExprLang.Resolution.Basic
import ExprLang.Resolution.Evaluation
import ExprLang.Resolution.Terms
import ExprLang.RuleSet.Lookup
import ExprLang.RuleSet.Table
import ExprLang.ScanRules
import ExprLang.Span
import ExprLang.Term
import ExprLang.Text.Basic
import ExprLang.Text.Blank
import ExprLang.Text.Printable
import ExprLang.Text.Quoted
import ExprLang.Text.Source
import ExprLang.Value.Basic
import ExprLang.Value.Error
import ExprLang.Value.Format
import ExprLang.Value.Number
import ExprLang.Value.Operation
import ExprLang.Value.Printer
import ExprLang.Proofs.Command.Arguments
import ExprLang.Proofs.RuleSet.StoredLists
import ExprLang.Proofs.Resolution.Separators
import ExprLang.Grouping.Links
import ExprLang.Proofs.Grouping.Links
import ExprLang.Proofs.RuleSet.TableOrder
