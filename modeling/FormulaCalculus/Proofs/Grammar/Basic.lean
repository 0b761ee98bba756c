import FormulaCalculus.Token.Lexicon
import FormulaCalculus.Tree.Build

/-!
The grammar of formulas over the standard operators and functions. A derivation says how a formula
is put together; it is written as a list of tokens, and it denotes a tree. A minus in front of a
sum belongs to the first power only.
-/

namespace FormulaCalculus

namespace Lexicon

def minus : UnaryOperator := ⟨TokenId.neg, 10, false, standardAllowedLeft⟩

def caret : BinaryOperator := ⟨TokenId.pow, 10, false, false, false, standardDisallowedLeft⟩

end Lexicon

/-- The tokens of a formula with parentheses around it. -/
def parenTokens {α : Type} (ts : List (Token α)) : List (Token α) :=
  .leftParen :: (ts ++ [.rightParen])

/-- The operators that join powers to a product. -/
inductive ProductSign where
  | times | divided
  deriving DecidableEq

namespace ProductSign

def fn : ProductSign → BinaryFn
  | times => .mul
  | divided => .div

/-- The operator in the standard lexicon. -/
def operator : ProductSign → BinaryOperator
  | times => ⟨TokenId.mul, 5, true, true, false, Lexicon.standardDisallowedLeft⟩
  | divided => ⟨TokenId.div, 5, true, false, false, Lexicon.standardDisallowedLeft⟩

end ProductSign

/-- The operators that join products to a sum. -/
inductive SumSign where
  | plus | less
  deriving DecidableEq

namespace SumSign

def fn : SumSign → BinaryFn
  | plus => .add
  | less => .sub

/-- The operator in the standard lexicon. -/
def operator : SumSign → BinaryOperator
  | plus => ⟨TokenId.add, 3, true, true, false, Lexicon.standardDisallowedLeft⟩
  | less => ⟨TokenId.sub, 3, true, false, true, Lexicon.standardDisallowedLeft⟩

end SumSign

/-- The functions that are called with two arguments. -/
inductive PairFn where
  | pow | atan2
  deriving DecidableEq

namespace PairFn

def name : PairFn → String
  | pow => "pow"
  | atan2 => "atan2"

def fn : PairFn → BinaryFn
  | pow => .pow
  | atan2 => .atan2

/-- The function in the standard lexicon. -/
def function : PairFn → Function
  | pow => ⟨TokenId.powCall, 2⟩
  | atan2 => ⟨BinaryFn.atan2.id, 2⟩

end PairFn

namespace UnaryFn

/-- The function in the standard lexicon; the minus has none. -/
def function (f : UnaryFn) : Function := ⟨f.id, 1⟩

end UnaryFn

namespace Lexicon

theorem standardBinaryOperators_eq :
    standardBinaryOperators =
      [⟨"^", caret⟩, ⟨"*", ProductSign.times.operator⟩, ⟨"/", ProductSign.divided.operator⟩,
        ⟨"+", SumSign.plus.operator⟩, ⟨"-", SumSign.less.operator⟩] := rfl

theorem unaryFn_mem_standardFunctions {f : UnaryFn} (hf : f ≠ .neg) :
    ⟨f.name, f.function⟩ ∈ standardFunctions := by
  cases f <;> first | exact absurd rfl hf | simp [standardFunctions, UnaryFn.function]

theorem pairFn_mem_standardFunctions (f : PairFn) :
    ⟨f.name, f.function⟩ ∈ standardFunctions := by
  cases f <;> simp [standardFunctions, PairFn.name, PairFn.function]

theorem token_of_mem_standardFunctions {s : Spelled Function} (hs : s ∈ standardFunctions) :
    (∃ f : UnaryFn, s.token = f.function) ∨ ∃ f : PairFn, s.token = f.function := by
  simp only [standardFunctions, List.mem_cons, List.not_mem_nil, or_false] at hs
  rcases hs with rfl | rfl | rfl | rfl | rfl | rfl | rfl | rfl | rfl | rfl | rfl | rfl | rfl | rfl |
    rfl | rfl | rfl | rfl | rfl | rfl <;>
    first
    | exact Or.inl ⟨_, rfl⟩
    | exact Or.inr ⟨.pow, rfl⟩
    | exact Or.inr ⟨.atan2, rfl⟩

end Lexicon

/-- The places a part of a formula can stand in, from the tightest to the loosest. A term is signed
when a minus stands in front of it. -/
inductive Rank where
  | primary | power | term (signed : Bool) | sum

/-- Derivations of formulas. The first argument of a call with two arguments is a primary: a comma
does not end an argument that operators are waiting for. -/
inductive Formula (α β : Type) : Rank → Type where
  | constant (c : Constant α) : Formula α β .primary
  | variableLeaf (name : String) (binding : β) : Formula α β .primary
  | parens (e : Formula α β .sum) : Formula α β .primary
  | call (f : UnaryFn) (ne_neg : f ≠ .neg) (e : Formula α β .sum) : Formula α β .primary
  | pairCall (f : PairFn) (a : Formula α β .primary) (e : Formula α β .sum) :
      Formula α β .primary
  | ofPrimary (a : Formula α β .primary) : Formula α β .power
  | raised (a : Formula α β .primary) (b : Formula α β .power) : Formula α β .power
  | ofPower (a : Formula α β .power) : Formula α β (.term false)
  | negated (a : Formula α β .power) : Formula α β (.term true)
  | product {signed : Bool} (a : Formula α β (.term signed)) (sign : ProductSign)
      (b : Formula α β .power) : Formula α β (.term signed)
  | ofTerm {signed : Bool} (a : Formula α β (.term signed)) : Formula α β .sum
  | sum (a : Formula α β .sum) (sign : SumSign) (b : Formula α β (.term false)) :
      Formula α β .sum

namespace Formula

variable {α β : Type}

/-- The tokens the formula is written with. -/
def tokens {r : Rank} : Formula α β r → List (Token α)
  | constant c => [.constant c]
  | variableLeaf name _ => [.variableName name]
  | parens e => .leftParen :: e.tokens ++ [.rightParen]
  | call f _ e => .function f.function :: .leftParen :: e.tokens ++ [.rightParen]
  | pairCall f a e =>
    .function f.function :: .leftParen :: a.tokens ++ .comma :: e.tokens ++ [.rightParen]
  | ofPrimary a | ofPower a | ofTerm a => a.tokens
  | raised a b => a.tokens ++ .binaryOperator Lexicon.caret :: b.tokens
  | negated a => .unaryOperator Lexicon.minus :: a.tokens
  | product a sign b => a.tokens ++ .binaryOperator sign.operator :: b.tokens
  | sum a sign b => a.tokens ++ .binaryOperator sign.operator :: b.tokens

/-- The same tokens, each operator and function behind its operands. -/
def postfixTokens {r : Rank} : Formula α β r → List (Token α)
  | constant c => [.constant c]
  | variableLeaf name _ => [.variableName name]
  | parens e => e.postfixTokens
  | call f _ e => e.postfixTokens ++ [.function f.function]
  | pairCall f a e => a.postfixTokens ++ e.postfixTokens ++ [.function f.function]
  | ofPrimary a | ofPower a | ofTerm a => a.postfixTokens
  | raised a b => a.postfixTokens ++ b.postfixTokens ++ [.binaryOperator Lexicon.caret]
  | negated a => a.postfixTokens ++ [.unaryOperator Lexicon.minus]
  | product a sign b => a.postfixTokens ++ b.postfixTokens ++ [.binaryOperator sign.operator]
  | sum a sign b => a.postfixTokens ++ b.postfixTokens ++ [.binaryOperator sign.operator]

/-- The tree the formula denotes. -/
def tree {r : Rank} : Formula α β r → Node α β
  | constant c => .constant c
  | variableLeaf name b => .variableLeaf name b
  | parens e => e.tree
  | call f _ e => .unary f e.tree
  | pairCall f a e => .binary f.fn a.tree e.tree
  | ofPrimary a | ofPower a | ofTerm a => a.tree
  | raised a b => .binary .pow a.tree b.tree
  | negated a => .unary .neg a.tree
  | product a sign b => .binary sign.fn a.tree b.tree
  | sum a sign b => .binary sign.fn a.tree b.tree

/-- Whether every variable has its binding. -/
def Bound (bindings : String → Option β) {r : Rank} : Formula α β r → Prop
  | constant _ => True
  | variableLeaf name b => bindings name = some b
  | parens e | call _ _ e => e.Bound bindings
  | ofPrimary a | ofPower a | ofTerm a | negated a => a.Bound bindings
  | pairCall _ a b | raised a b | product a _ b | sum a _ b =>
    a.Bound bindings ∧ b.Bound bindings

end Formula

end FormulaCalculus
