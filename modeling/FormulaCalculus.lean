import FormulaCalculus.Model.SpecText
import FormulaCalculus.Journal
import FormulaCalculus.LeastSquares.Fit
import FormulaCalculus.Expression
import FormulaCalculus.Algebra.Reduction
import FormulaCalculus.Tree.Template
import FormulaCalculus.Tree.Printer
import FormulaCalculus.Tree.Derivative
import FormulaCalculus.Token.Lexeme
import FormulaCalculus.Postfix
import FormulaCalculus.Scalar.Double
import FormulaCalculus.Decimal.Numeral
import FormulaCalculus.Constant.Printer
import FormulaCalculus.Algebra.Value
import FormulaCalculus.Proofs.Grammar.Basic
import FormulaCalculus.Proofs.Grammar.Precedence
import FormulaCalculus.Proofs.Tree.Building
import FormulaCalculus.Proofs.Tree.Postorder
import FormulaCalculus.Proofs.Postfix.Rearrangement
import FormulaCalculus.Proofs.Token.Delimiter
import FormulaCalculus.Proofs.Token.LiteralText
import FormulaCalculus.Proofs.Token.NextToken
import FormulaCalculus.Proofs.Token.Reading
import FormulaCalculus.Proofs.Postfix.OuterOperators
import FormulaCalculus.Proofs.Postfix.Waiting
import FormulaCalculus.Proofs.Tree.Order
import FormulaCalculus.Proofs.Call.Arguments
import FormulaCalculus.Proofs.Calculus.Exact
import FormulaCalculus.Proofs.Calculus.Slopes
import FormulaCalculus.Proofs.Calculus.Values
import FormulaCalculus.Proofs.Calculus.ChainRules
import FormulaCalculus.Proofs.Calculus.Derivative
import FormulaCalculus.Proofs.Tensor.Shape
import FormulaCalculus.Proofs.Tensor.Stretching
import FormulaCalculus.Proofs.Algebra.Stretching
import FormulaCalculus.Proofs.Algebra.Uniform
import FormulaCalculus.Proofs.Algebra.Symbols
import FormulaCalculus.Proofs.Tree.Simplification
import FormulaCalculus.Proofs.Derivative.Refinement
import FormulaCalculus.Proofs.Derivative.Agreement
import FormulaCalculus.Proofs.Call.Composition
import FormulaCalculus.Proofs.Grammar.Derivations
import FormulaCalculus.Proofs.Grammar.Acceptance
import FormulaCalculus.Proofs.Scalar.Double
import FormulaCalculus.Proofs.Grammar.Operands
import FormulaCalculus.Proofs.Tree.Printing
import FormulaCalculus.Proofs.Filling.Constants
import FormulaCalculus.Proofs.Filling.Powers
import FormulaCalculus.Proofs.Filling.Entries
import FormulaCalculus.Proofs.Filling.Values
import FormulaCalculus.Proofs.Model.Triangle
import FormulaCalculus.Proofs.Model.Assembly
import FormulaCalculus.Proofs.Algebra.Outcome
import FormulaCalculus.Proofs.Scalar.Sign
import FormulaCalculus.Proofs.Derivative.Closure
import FormulaCalculus.Proofs.Tree.WellFormed
import FormulaCalculus.Proofs.Scalar.Rounding
import FormulaCalculus.Proofs.Scalar.DoubleLaws
import FormulaCalculus.Proofs.Nearness.Constants
import FormulaCalculus.Proofs.Nearness.Entries
import FormulaCalculus.Proofs.Nearness.Values
import FormulaCalculus.Proofs.Nearness.Trees
import FormulaCalculus.Proofs.Nearness.Symbols
import FormulaCalculus.Proofs.Nearness.Derivative
import FormulaCalculus.Proofs.Tree.Compiled
import FormulaCalculus.Proofs.Model.DerivativeFormulas
import FormulaCalculus.Proofs.Derivative.Absent
import FormulaCalculus.Proofs.Postfix.Balance
import FormulaCalculus.Proofs.Failure.Lexing
import FormulaCalculus.Proofs.Failure.Compilation
import FormulaCalculus.Proofs.Token.Placement
import FormulaCalculus.Proofs.Token.Pause
import FormulaCalculus.Proofs.Token.Spacing
import FormulaCalculus.Proofs.Tree.Bindings
import FormulaCalculus.Proofs.Model.Reading
import FormulaCalculus.Proofs.Model.History
import FormulaCalculus.Proofs.LeastSquares.Memory
import FormulaCalculus.Proofs.Failure.Progress
import FormulaCalculus.Proofs.Model.Columns
import FormulaCalculus.Proofs.LeastSquares.Dimensions
import FormulaCalculus.Proofs.Algebra.RealLine
import FormulaCalculus.Proofs.Algebra.Ordinary
import FormulaCalculus.Proofs.Decimal.Shortest
import FormulaCalculus.Proofs.Decimal.Positional
import FormulaCalculus.Proofs.Scalar.Nearest
import FormulaCalculus.Proofs.Scalar.Decimals
import FormulaCalculus.Proofs.Decimal.RoundTrip
import FormulaCalculus.Proofs.Alike.Constants
import FormulaCalculus.Proofs.Alike.Values
import FormulaCalculus.Proofs.Alike.Powers
import FormulaCalculus.Proofs.Tree.Settled
import FormulaCalculus.Proofs.Tree.DerivedText
import FormulaCalculus.Proofs.Json.Writing
import FormulaCalculus.Proofs.Model.DescriptionText
import FormulaCalculus.Proofs.Tree.RealLine
import FormulaCalculus.Proofs.Alike.Broadcasting
import FormulaCalculus.Proofs.Tree.SimplifiedValue
import FormulaCalculus.Proofs.Algebra.ZeroDivisor
import FormulaCalculus.Proofs.Scalar.ZeroPower
import FormulaCalculus.Proofs.Algebra.ZeroExponent
import FormulaCalculus.Proofs.Algebra.Commutation
import FormulaCalculus.Proofs.Algebra.Subtraction
import FormulaCalculus.Proofs.Tree.Application
import FormulaCalculus.Proofs.Token.RegistrationOrder
import FormulaCalculus.Proofs.Derivative.Dependence
import FormulaCalculus.Proofs.Token.Numeral
import FormulaCalculus.Proofs.Tensor.PartialJoin
import FormulaCalculus.Proofs.Tensor.Elementwise
import FormulaCalculus.Proofs.LeastSquares.Polynomial
