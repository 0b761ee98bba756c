import FormulaCalculus.Token.Basic

/-!
Reordering a formula into postfix order, by the precedence and associativity of its operators. A
function stands on the stack below its opening parenthesis until its call closes. Commas vanish:
the lexer has checked the number of arguments.
-/

namespace FormulaCalculus

inductive ParseError where
  | mismatchedParentheses
  | leftoverOperators (remaining : Nat)
  /-- A token that cannot stand in a formula. -/
  | unexpectedToken (id : TokenId)
  /-- A token that cannot stand on the stack where an operator comes. -/
  | unexpectedStackToken (id : TokenId)
  deriving DecidableEq

/-- The tokens put out so far, and those waiting on the stack, topmost first. -/
structure Shunting (α : Type) where
  output : List (Token α)
  stack : List (Token α)

namespace Shunting

variable {α : Type}

def initial : Shunting α := ⟨[], []⟩

/-- Splits the stack before the first token that an operator does not move to the output: an
opening parenthesis, or an operator that binds less tightly, or as tightly unless the new operator
is left associative. -/
def splitOperators (precedence : Int) (leftAssociative : Bool) :
    List (Token α) → Except ParseError (List (Token α) × List (Token α))
  | [] => .ok ([], [])
  | .leftParen :: rest => .ok ([], .leftParen :: rest)
  | top :: rest =>
    match top.precedence? with
    | some p =>
      if p > precedence || (p == precedence && leftAssociative) then do
        let (popped, kept) ← splitOperators precedence leftAssociative rest
        return (top :: popped, kept)
      else .ok ([], top :: rest)
    | none => .error (.unexpectedStackToken top.id)

/-- Splits the stack at the topmost opening parenthesis, which is dropped. -/
def splitParen : List (Token α) → Except ParseError (List (Token α) × List (Token α))
  | [] => .error .mismatchedParentheses
  | .leftParen :: rest => .ok ([], rest)
  | top :: rest => do
    let (popped, kept) ← splitParen rest
    return (top :: popped, kept)

/-- Puts an operator on the stack, after those that bind before it. -/
def pushOperator (token : Token α) (precedence : Int) (leftAssociative : Bool) (s : Shunting α) :
    Except ParseError (Shunting α) := do
  let (popped, kept) ← splitOperators precedence leftAssociative s.stack
  return ⟨s.output ++ popped, token :: kept⟩

/-- Closes a parenthesis, together with the call it belongs to. -/
def closeParen (s : Shunting α) : Except ParseError (Shunting α) := do
  let (popped, kept) ← splitParen s.stack
  match kept with
  | .function f :: rest => return ⟨s.output ++ popped ++ [.function f], rest⟩
  | _ => return ⟨s.output ++ popped, kept⟩

/-- Takes one token of the formula. -/
def step (s : Shunting α) (token : Token α) : Except ParseError (Shunting α) :=
  match token with
  | .start => .error (.unexpectedToken token.id)
  | .constant _ | .variableName _ => .ok ⟨s.output ++ [token], s.stack⟩
  | .function _ | .leftParen => .ok ⟨s.output, token :: s.stack⟩
  | .unaryOperator op => s.pushOperator token op.precedence op.leftAssociative
  | .binaryOperator op => s.pushOperator token op.precedence op.leftAssociative
  | .rightParen => s.closeParen
  | .comma => .ok s

/-- Takes the tokens of a formula one by one. -/
def run (s : Shunting α) (tokens : List (Token α)) : Except ParseError (Shunting α) :=
  tokens.foldlM step s

/-- The operators that wait on top of the stack. -/
def waiting (s : Shunting α) : List (Token α) := s.stack.takeWhile Token.isOperator

/-- Puts the waiting operators out; nothing else may be left on the stack. -/
def finish (s : Shunting α) : Except ParseError (List (Token α)) :=
  match s.stack.dropWhile Token.isOperator with
  | [] => .ok (s.output ++ s.waiting)
  | .leftParen :: _ => .error .mismatchedParentheses
  | left => .error (.leftoverOperators left.length)

end Shunting

/-- The tokens of a formula in postfix order. -/
def toPostfix {α : Type} (tokens : List (Token α)) : Except ParseError (List (Token α)) := do
  let s ← Shunting.initial.run tokens
  s.finish

end FormulaCalculus
