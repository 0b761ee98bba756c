import FormulaCalculus.Token.Basic

/-!
The lexicon of a formula: the operators, functions and variable names it may be written with.
Operators stay in the order of their registration; functions and variables are kept longest
spelling first, so that no name hides a longer one.
-/

namespace FormulaCalculus

/-- A token with the text it is written as. -/
structure Spelled (τ : Type) where
  spelling : String
  token : τ

structure Lexicon where
  unaryOperators : List (Spelled UnaryOperator)
  binaryOperators : List (Spelled BinaryOperator)
  functions : List (Spelled Function)
  variableNames : List String

/-- Whether the first name is tried before the second: longer ones first, and names of one length
in the order of their characters. Lengths are counted in bytes. -/
def ranksBefore (a b : String) : Bool :=
  b.utf8ByteSize < a.utf8ByteSize || (a.utf8ByteSize == b.utf8ByteSize && a < b)

/-- Inserts an entry in front of the first one that its name ranks before. -/
def insertRanked {β : Type} (name : β → String) (x : β) : List β → List β
  | [] => [x]
  | y :: ys => if ranksBefore (name x) (name y) then x :: y :: ys else y :: insertRanked name x ys

namespace Lexicon

/-- The lexicon without any entry. -/
def empty : Lexicon := ⟨[], [], [], []⟩

/-- Declares a variable name; a second declaration has no effect. -/
def withVariable (name : String) (l : Lexicon) : Lexicon :=
  if l.variableNames.contains name then l
  else { l with variableNames := insertRanked (fun n => n) name l.variableNames }

def withVariables (names : List String) (l : Lexicon) : Lexicon :=
  names.foldl (fun l name => l.withVariable name) l

def withUnaryOperator (spelling : String) (op : UnaryOperator) (l : Lexicon) : Lexicon :=
  { l with unaryOperators := l.unaryOperators ++ [⟨spelling, op⟩] }

def withBinaryOperator (spelling : String) (op : BinaryOperator) (l : Lexicon) : Lexicon :=
  { l with binaryOperators := l.binaryOperators ++ [⟨spelling, op⟩] }

/-- Registers a function in place of any function of the same name. -/
def withFunction (name : String) (f : Function) (l : Lexicon) : Lexicon :=
  { l with
    functions := insertRanked Spelled.spelling ⟨name, f⟩
      (l.functions.filter fun g => g.spelling != name) }

/-- The ids that the standard unary minus may follow. -/
def standardAllowedLeft : List TokenId := [TokenId.start, TokenId.leftParen, TokenId.comma]

/-- The ids that no standard binary operator may follow. -/
def standardDisallowedLeft : List TokenId :=
  [TokenId.start, TokenId.leftParen, TokenId.comma, TokenId.neg, TokenId.pow, TokenId.mul,
    TokenId.div, TokenId.add, TokenId.sub]

def standardUnaryOperators : List (Spelled UnaryOperator) :=
  [⟨"-", ⟨TokenId.neg, 10, false, standardAllowedLeft⟩⟩]

def standardBinaryOperators : List (Spelled BinaryOperator) :=
  [⟨"^", ⟨TokenId.pow, 10, false, false, false, standardDisallowedLeft⟩⟩,
    ⟨"*", ⟨TokenId.mul, 5, true, true, false, standardDisallowedLeft⟩⟩,
    ⟨"/", ⟨TokenId.div, 5, true, false, false, standardDisallowedLeft⟩⟩,
    ⟨"+", ⟨TokenId.add, 3, true, true, false, standardDisallowedLeft⟩⟩,
    ⟨"-", ⟨TokenId.sub, 3, true, false, true, standardDisallowedLeft⟩⟩]

/-- Every function of one operand but the minus, and the two functions of two operands, longest
name first. -/
def standardFunctions : List (Spelled Function) :=
  let unary (f : UnaryFn) : Spelled Function := ⟨f.name, ⟨f.id, 1⟩⟩
  [unary .square, unary .acosh, unary .asinh, ⟨"atan2", ⟨BinaryFn.atan2.id, 2⟩⟩, unary .atanh,
    unary .log10, unary .acos, unary .asin, unary .atan, unary .cosh, unary .sinh, unary .sqrt,
    unary .tanh, unary .abs, unary .cos, unary .exp, unary .log, ⟨"pow", ⟨TokenId.powCall, 2⟩⟩,
    unary .sin, unary .tan]

/-- The lexicon of the standard operators and functions, without variables. -/
def standard : Lexicon :=
  ⟨standardUnaryOperators, standardBinaryOperators, standardFunctions, []⟩

/-- The text that an operator or function id is written as: unary operators are looked up first,
then binary ones, then functions. -/
def spelling? (l : Lexicon) (i : TokenId) : Option String :=
  ((l.unaryOperators.find? fun s => s.token.id == i).map Spelled.spelling).or <|
    ((l.binaryOperators.find? fun s => s.token.id == i).map Spelled.spelling).or <|
      (l.functions.find? fun s => s.token.id == i).map Spelled.spelling

end Lexicon

end FormulaCalculus
