import FormulaCalculus.Constant.Basic

/-!
The written form of a constant inside a formula. Negative numbers and the undefined value are
parenthesised, so that the text can stand as an operand.
-/

namespace FormulaCalculus

namespace ComplexNumber

variable {α : Type} [Scalar α] [DecimalText α]

/-- The written form of a complex number; a part that is zero is left out. -/
def render (z : ComplexNumber α) : String :=
  let negative := Scalar.lt z.im Scalar.zero
  if z.isReal then
    if Scalar.lt z.re Scalar.zero then "(-" ++ DecimalText.render (-z.re) ++ ")"
    else DecimalText.render z.re
  else if z.re == Scalar.zero then
    if negative then "(-" ++ DecimalText.render (-z.im) ++ "i)" else DecimalText.render z.im ++ "i"
  else if negative then
    "(" ++ DecimalText.render z.re ++ "-" ++ DecimalText.render (-z.im) ++ "i)"
  else "(" ++ DecimalText.render z.re ++ "+" ++ DecimalText.render z.im ++ "i)"

end ComplexNumber

/-- The written form of a constant; the undefined value is written as a quotient by zero. -/
def Constant.render {α : Type} [Scalar α] [DecimalText α] : Constant α → String
  | zero _ => "0"
  | unity _ => "1"
  | negUnity _ => "(-1)"
  | nan _ => "(0/0)"
  | number n => n.value.render

end FormulaCalculus
