/-!
The functions a formula can apply, with the ids their tokens carry and the names they are written
with.
-/

namespace FormulaCalculus

/-- The number that identifies a kind of token. -/
abbrev TokenId := Int

namespace TokenId

/-- The id that stands for the position before the first token. -/
def start : TokenId := 0
def leftParen : TokenId := 1
def rightParen : TokenId := 2
def comma : TokenId := 3
def unity : TokenId := 4
def negUnity : TokenId := 5
def zero : TokenId := 6
def nan : TokenId := 7
def number : TokenId := 8
def variableName : TokenId := 9
def neg : TokenId := 10
def pow : TokenId := 11
def mul : TokenId := 12
def div : TokenId := 13
def add : TokenId := 14
def sub : TokenId := 15
/-- The id of the power written as a function of two arguments. -/
def powCall : TokenId := 35

end TokenId

/-- Functions of one operand. -/
inductive UnaryFn where
  | neg | abs | sqrt | square | exp | log | log10
  | sin | cos | tan | asin | acos | atan
  | sinh | cosh | tanh | asinh | acosh | atanh
  deriving DecidableEq

namespace UnaryFn

def all : List UnaryFn :=
  [neg, abs, sqrt, square, exp, log, log10, sin, cos, tan, asin, acos, atan, sinh, cosh, tanh,
    asinh, acosh, atanh]

/-- The name the function is written with. -/
def name : UnaryFn → String
  | neg => "neg"
  | abs => "abs"
  | sqrt => "sqrt"
  | square => "square"
  | exp => "exp"
  | log => "log"
  | log10 => "log10"
  | sin => "sin"
  | cos => "cos"
  | tan => "tan"
  | asin => "asin"
  | acos => "acos"
  | atan => "atan"
  | sinh => "sinh"
  | cosh => "cosh"
  | tanh => "tanh"
  | asinh => "asinh"
  | acosh => "acosh"
  | atanh => "atanh"

/-- The id of the function's token. -/
def id : UnaryFn → TokenId
  | neg => TokenId.neg
  | sin => 16
  | cos => 17
  | tan => 18
  | asin => 19
  | acos => 20
  | atan => 21
  | sinh => 23
  | cosh => 24
  | tanh => 25
  | asinh => 26
  | acosh => 27
  | atanh => 28
  | exp => 29
  | log => 30
  | log10 => 31
  | sqrt => 32
  | square => 33
  | abs => 34

def ofId? (i : TokenId) : Option UnaryFn := all.find? fun f => f.id == i

end UnaryFn

/-- Functions of two operands. -/
inductive BinaryFn where
  | add | sub | mul | div | pow | atan2
  deriving DecidableEq

namespace BinaryFn

def all : List BinaryFn := [add, sub, mul, div, pow, atan2]

def name : BinaryFn → String
  | add => "add"
  | sub => "sub"
  | mul => "mul"
  | div => "div"
  | pow => "pow"
  | atan2 => "atan2"

/-- The sign written between the operands, for the functions that have one. -/
def symbol? : BinaryFn → Option String
  | add => some "+"
  | sub => some "-"
  | mul => some "*"
  | div => some "/"
  | pow => some "^"
  | atan2 => none

def isCommutative : BinaryFn → Bool
  | add | mul => true
  | _ => false

/-- The id of the function's token; the power has a second one, `TokenId.powCall`. -/
def id : BinaryFn → TokenId
  | pow => TokenId.pow
  | mul => TokenId.mul
  | div => TokenId.div
  | add => TokenId.add
  | sub => TokenId.sub
  | atan2 => 22

def ofId? (i : TokenId) : Option BinaryFn :=
  if i == TokenId.powCall then some pow else all.find? fun f => f.id == i

end BinaryFn

end FormulaCalculus
