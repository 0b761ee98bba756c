import FormulaCalculus.Algebra.Error
import FormulaCalculus.Constant.Printer
import FormulaCalculus.Postfix
import FormulaCalculus.Token.Lexeme
import FormulaCalculus.Tree.Build

/-!
Everything that can go wrong with a formula, a model or a fit, and how it is said.
-/

namespace FormulaCalculus

/-- Two counts that should agree. -/
inductive DimensionMismatch where
  | residuals (expected found : Nat)
  | column (index rows expected : Nat)
  | derivatives (expected found : Nat)
  | secondDerivatives (expected found : Nat)
  | parameterValues (expected found : Nat)
  | observedValues (expected found : Nat)
  | observations (produced given : Nat)
  /-- A mismatch described by the caller in words. -/
  | described (text : String)
  deriving DecidableEq

/-- An input that a model does not accept. -/
inductive InvalidInput where
  | noParameter
  | declaredTwice (name : String)
  | notAParameter (name : String)
  | notAConstant (name : String)
  | parameterIndex (index count : Nat)
  /-- An input described by the caller in words. -/
  | described (text : String)
  deriving DecidableEq

/-- Any error of the library. -/
inductive Error (α : Type) where
  | lex (e : LexError)
  | parse (e : ParseError)
  | build (e : BuildError)
  | algebra (e : AlgebraError α)
  | binding (e : BindingError)
  | dimensionMismatch (e : DimensionMismatch)
  | invalidInput (e : InvalidInput)
  | json
  /-- An error of the caller's own. -/
  | other (text : String)

def LexError.message : LexError → String
  | noMatch remaining => "no token matches the remaining input: '" ++ remaining ++ "'"
  | disallowedAdjacency previous operator =>
    "token with id " ++ toString previous ++ " is disallowed before binary operator with id " ++
      toString operator
  | missingCallParen name => "function '" ++ name ++ "' must be followed by '('"
  | unbalancedCall name => "parentheses after function '" ++ name ++ "' did not match"
  | arityMismatch name expected found =>
    "function '" ++ name ++ "' expects " ++ toString expected ++ " argument(s), found " ++
      toString found
  | invalidNumber literal => "invalid number literal: '" ++ literal ++ "'"
  | endless remaining => "no token makes the remaining input shorter: '" ++ remaining ++ "'"

def ParseError.message : ParseError → String
  | mismatchedParentheses => "mismatched parentheses"
  | leftoverOperators remaining =>
    "operator stack was not empty after shunting (" ++ toString remaining ++ " token(s) left)"
  | unexpectedToken id =>
    "token with id " ++ toString id ++ " can not appear in a lexed expression"
  | unexpectedStackToken id =>
    "token with id " ++ toString id ++ " must not be on the operator stack"

def BuildError.message : BuildError → String
  | missingConstructor id => "no node constructor registered for token id " ++ toString id
  | stackUnderflow id needed available =>
    "token with id " ++ toString id ++ " needs " ++ toString needed ++ " operand(s) but only " ++
      toString available ++ " were available"
  | arityMismatch id expected found =>
    "constructor for token id " ++ toString id ++ " received " ++ toString found ++
      " children, expected " ++ toString expected
  | unreduced remaining =>
    "expression did not reduce to a single node (" ++ toString remaining ++ " left)"
  | unexpectedToken id => "token with id " ++ toString id ++ " can not be turned into a node"

def BindingError.message : BindingError → String
  | unboundVariable name => "variable '" ++ name ++ "' has no fetcher bound to it"

def DimensionMismatch.message : DimensionMismatch → String
  | residuals expected found =>
    "Expected " ++ toString expected ++ " residuals, got " ++ toString found
  | column index rows expected =>
    "Column " ++ toString index ++ " has " ++ toString rows ++ " rows, expected " ++
      toString expected
  | derivatives expected found =>
    "expected " ++ toString expected ++ " derivative expressions, got " ++ toString found
  | secondDerivatives expected found =>
    "expected " ++ toString expected ++ " second derivative expressions, got " ++ toString found
  | parameterValues expected found =>
    "expected " ++ toString expected ++ " parameter values, got " ++ toString found
  | observedValues expected found =>
    "expected " ++ toString expected ++ " observed values, got " ++ toString found
  | observations produced given =>
    "model produces " ++ toString produced ++ " values but " ++ toString given ++
      " observations were given"
  | described text => text

def InvalidInput.message : InvalidInput → String
  | noParameter => "a model needs at least one parameter"
  | declaredTwice name => "variable '" ++ name ++ "' is declared more than once"
  | notAParameter name => "'" ++ name ++ "' is not a parameter"
  | notAConstant name => "'" ++ name ++ "' is not a constant"
  | parameterIndex index count =>
    "parameter index " ++ toString index ++ " out of range for " ++ toString count ++ " parameters"
  | described text => text

section

variable {α : Type} [Scalar α] [DecimalText α]

def UnsupportedUse.message : UnsupportedUse α → String
  | angleOfComplex c => "atan2 of complex value " ++ c.render
  | operandNotConstant operand operator =>
    "token with id " ++ toString operand ++ " is not a constant operand for id " ++
      toString operator
  | noTable operator => "no algebra table for token id " ++ toString operator
  | operandCount operator arity found =>
    "token with id " ++ toString operator ++ " takes " ++ toString arity ++ " operand(s), got " ++
      toString found
  | described text => text

def AlgebraError.message : AlgebraError α → String
  | broadcast lhs rhs =>
    "shapes " ++ Shape.render lhs ++ " and " ++ Shape.render rhs ++ " can not be broadcast together"
  | unsupported use => "unsupported operator application: " ++ use.message
  | complexMaterialization value operation =>
    "complex value " ++ DecimalText.render value.re ++ DecimalText.renderSigned value.im ++
      "i can not be combined with a real tensor in " ++ operation
  | unaddressable shape => "no tensor can have shape " ++ Shape.render shape

/-- What is said of an error: the part of the work it comes from, and its own message. -/
def Error.message : Error α → String
  | lex e => "Lex error: " ++ e.message
  | parse e => "Parse error: " ++ e.message
  | build e => "Build error: " ++ e.message
  | algebra e => "Algebra error: " ++ e.message
  | binding e => "Binding error: " ++ e.message
  | dimensionMismatch e => "Dimension mismatch: " ++ e.message
  | invalidInput e => "Invalid input: " ++ e.message
  | json => "JSON error"
  | other text => "Error: " ++ text

end

end FormulaCalculus
