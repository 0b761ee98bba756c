import FormulaCalculus.Algebra.Value
import FormulaCalculus.Token.Basic

/-!
An operator or function token applied to constant tokens.
-/

namespace FormulaCalculus

namespace Token

variable {α : Type} [Scalar α]

omit [Scalar α] in
/-- The constant of an operand token. -/
def asConstant (operator : TokenId) : Token α → Except (AlgebraError α) (Constant α)
  | constant c => .ok c
  | t => .error (.unsupported (.operandNotConstant t.id operator))

omit [Scalar α] in
/-- The function of a token, or the error that it has none. -/
def tableFor {τ : Type} (id : TokenId) (f : Option τ) : Except (AlgebraError α) τ :=
  match f with
  | some f => .ok f
  | none => .error (.unsupported (.noTable id))

/-- Applies an operator or function token to its operands. -/
def apply (operator : Token α) (operands : List (Token α)) :
    Except (AlgebraError α) (Constant α) := do
  let constants ← operands.mapM (asConstant operator.id)
  match operator.arity, constants with
  | 1, [c] => return (← tableFor operator.id (UnaryFn.ofId? operator.id)).onConstant c
  | 2, [c, d] => (← tableFor operator.id (BinaryFn.ofId? operator.id)).onConstants c d
  | arity, _ => throw (.unsupported (.operandCount operator.id arity constants.length))

end Token

end FormulaCalculus
