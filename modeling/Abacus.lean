import Abacus.Command
import Abacus.Command.Arguments
import Abacus.Elements
import Abacus.Env
import Abacus.Error
import Abacus.Eval.Basic
import Abacus.Eval.Builtin
import Abacus.Eval.Operation
import Abacus.Eval.Term
import Abacus.Main
import Abacus.Number.Binary64
import Abacus.Number.Integer
import Abacus.Number.Literal
import Abacus.Number.Power
import Abacus.Number.Text
import Abacus.Number.Truth
import Abacus.Operator
import Abacus.Parse.Basic
import Abacus.Parse.Expression
import Abacus.Parse.Program
import Abacus.Parse.Statement
import Abacus.Position
import Abacus.Proofs.Eval.Following
import Abacus.Proofs.Eval.Functions
import Abacus.Proofs.Eval.Globals
import Abacus.Proofs.Eval.WellFormed
import Abacus.Proofs.Grammar.Expression
import Abacus.Proofs.Grammar.ExpressionReading
import Abacus.Proofs.Grammar.ExpressionText
import Abacus.Proofs.Grammar.Nesting
import Abacus.Proofs.Grammar.Parentheses
import Abacus.Proofs.Grammar.ProgramReading
import Abacus.Proofs.Grammar.Statement
import Abacus.Proofs.Grammar.StatementReading
import Abacus.Proofs.Grammar.StatementText
import Abacus.Proofs.Parse.Calls
import Abacus.Proofs.Parse.Completion
import Abacus.Proofs.Parse.CompletionRules
import Abacus.Proofs.Parse.FirstMisfit
import Abacus.Proofs.Parse.Lookahead
import Abacus.Proofs.Parse.Rules
import Abacus.Proofs.Parse.Running
import Abacus.Proofs.Parse.Simulation
import Abacus.Proofs.Session.Hoisting
import Abacus.Proofs.Session.Pieces
import Abacus.Proofs.Session.ReadingAhead
import Abacus.Proofs.Session.Running
import Abacus.Proofs.Term.Parts
import Abacus.Proofs.Text.Semicolons
import Abacus.Proofs.Token.Acceptance
import Abacus.Proofs.Token.Covering
import Abacus.Proofs.Token.LongestMatch
import Abacus.Proofs.Token.Scanning
import Abacus.Proofs.Token.Spelling
import Abacus.Session
import Abacus.Table
import Abacus.Term
import Abacus.Term.Render
import Abacus.Text.Lines
import Abacus.Text.WhiteSpace
import Abacus.Token
import Abacus.Token.Scanner
import Abacus.Proofs.Session.Agreement
import Abacus.Proofs.Grammar.Precedence
import Abacus.Proofs.Command.LineByLine
import Abacus.Proofs.Eval.Bodies
import Abacus.Proofs.Eval.Returns
import Abacus.Proofs.Parse.ParenCheck
import Abacus.Proofs.Number.Exact
import Abacus.Proofs.Number.Significant
import Abacus.Proofs.Eval.Logic
import Abacus.Proofs.Eval.Indexing
import Abacus.Proofs.Eval.Storing
import Abacus.Proofs.Number.Rounding
import Abacus.Proofs.Number.Numeral
import Abacus.Proofs.Number.Writing
import Abacus.Proofs.Eval.FailedWrites
import Abacus.Proofs.Grammar.KnownNames
import Abacus.Proofs.Parse.DefinitionQueue
import Abacus.Proofs.Grammar.TreeShape
import Abacus.Proofs.Eval.Moves
import Abacus.Proofs.Eval.Output
import Abacus.Proofs.Eval.TruthValues
import Abacus.Proofs.Session.Output
import Abacus.Proofs.Eval.Termination
import Abacus.Proofs.Eval.Operators
import Abacus.Proofs.Grammar.ConditionOperators
import Abacus.Proofs.Session.Operators
import Abacus.Proofs.Token.LineBreaks
import Abacus.Proofs.Token.Respacing
import Abacus.Proofs.Eval.ArrayWrites
import Abacus.Proofs.Grammar.StatementLayout
