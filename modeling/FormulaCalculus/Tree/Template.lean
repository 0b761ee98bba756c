import FormulaCalculus.Tree.Build

/-!
Functions defined by a template: a tree with numbered places for the operands.
-/

namespace FormulaCalculus

/-- A tree in which places stand for operands, counted from zero. -/
inductive Template (α β : Type) where
  | operand (index : Nat)
  | leaf (a : Node α β)
  | unary (f : UnaryFn) (child : Template α β)
  | binary (f : BinaryFn) (lhs rhs : Template α β)

namespace Template

variable {α β : Type}

/-- The tree with the operands in their places; nothing if a place has no operand. -/
def fill? (operands : List (Node α β)) : Template α β → Option (Node α β)
  | operand i => operands[i]?
  | leaf a => some a
  | unary f a => do return .unary f (← a.fill? operands)
  | binary f a b => do return .binary f (← a.fill? operands) (← b.fill? operands)

/-- The constructor that fills the template with as many operands as it takes. -/
def toConstructor (id : TokenId) (arity : Nat) (t : Template α β) : Constructor α β :=
  fun operands =>
    match t.fill? operands with
    | some a => if operands.length = arity then .ok a
      else .error (.arityMismatch id arity operands.length)
    | none => .error (.arityMismatch id arity operands.length)

end Template

end FormulaCalculus
