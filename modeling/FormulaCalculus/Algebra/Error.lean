import FormulaCalculus.Constant.Basic

/-!
The ways a calculation can fail: shapes that do not meet, an operator without a rule for its
operands, a complex number where only real tensors are known, and a shape that no tensor can have.
-/

namespace FormulaCalculus

/-- Why an operator has no rule for its operands. -/
inductive UnsupportedUse (α : Type) where
  /-- The angle of a point one of whose coordinates is this complex constant. -/
  | angleOfComplex (c : Constant α)
  /-- An operand that is not a constant. -/
  | operandNotConstant (operand operator : TokenId)
  | noTable (operator : TokenId)
  | operandCount (operator : TokenId) (arity found : Nat)
  /-- A use described by the caller in words. -/
  | described (text : String)

inductive AlgebraError (α : Type) where
  | broadcast (lhs rhs : Shape)
  | unsupported (use : UnsupportedUse α)
  /-- A number with an imaginary part that would have to become a real tensor. -/
  | complexMaterialization (value : ComplexNumber α) (operation : String)
  /-- A shape whose axes are too long for a tensor to be filled in it. Nothing handles this one: the
  program stops. -/
  | unaddressable (shape : Shape)

end FormulaCalculus
