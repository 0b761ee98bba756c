import FormulaCalculus.Constant.Basic

/-!
The tokens of a formula. Every token has an id, by which operators name the tokens they may or may
not follow.
-/

namespace FormulaCalculus

/-- An operator in front of its operand. -/
structure UnaryOperator where
  id : TokenId
  precedence : Int
  leftAssociative : Bool
  /-- The ids of the tokens it may directly follow. -/
  allowedLeft : List TokenId

/-- An operator between its operands. -/
structure BinaryOperator where
  id : TokenId
  precedence : Int
  leftAssociative : Bool
  commutative : Bool
  antiCommutative : Bool
  /-- The ids of the tokens it must not directly follow. -/
  disallowedLeft : List TokenId

/-- A function written with its name and parenthesised arguments. -/
structure Function where
  id : TokenId
  arity : Nat

inductive Token (α : Type) where
  /-- The place before the first token; it never stands in a formula. -/
  | start
  | leftParen
  | rightParen
  | comma
  | constant (c : Constant α)
  | variableName (name : String)
  | unaryOperator (op : UnaryOperator)
  | binaryOperator (op : BinaryOperator)
  | function (f : Function)

namespace Token

variable {α : Type}

def id : Token α → TokenId
  | start => TokenId.start
  | leftParen => TokenId.leftParen
  | rightParen => TokenId.rightParen
  | comma => TokenId.comma
  | constant c => c.id
  | variableName _ => TokenId.variableName
  | unaryOperator op => op.id
  | binaryOperator op => op.id
  | function f => f.id

/-- The precedence of an operator. -/
def precedence? : Token α → Option Int
  | unaryOperator op => some op.precedence
  | binaryOperator op => some op.precedence
  | _ => none

/-- The number of operands the token takes. -/
def arity : Token α → Nat
  | unaryOperator _ => 1
  | binaryOperator _ => 2
  | function f => f.arity
  | _ => 0

def isOperand : Token α → Bool
  | constant _ | variableName _ => true
  | _ => false

def isOperator : Token α → Bool
  | unaryOperator _ | binaryOperator _ => true
  | _ => false

end Token

end FormulaCalculus
