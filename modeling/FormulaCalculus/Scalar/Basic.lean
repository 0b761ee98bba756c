/-!
The numbers a formula is computed in. `Scalar` lists every operation the engine performs on a
number, so that one text of the engine runs on machine numbers and is reasoned about on exact ones.
-/

namespace FormulaCalculus

/-- The arithmetic, comparisons and elementary functions of a number system. Comparison is IEEE
comparison where the system has a value that is not a number. -/
class Scalar (α : Type) extends Add α, Sub α, Mul α, Div α, Neg α, BEq α where
  zero : α
  one : α
  /-- Euler's number. -/
  e : α
  pi : α
  /-- The natural logarithm of ten. -/
  ln10 : α
  infinity : α
  /-- The value that is not a number. -/
  nan : α
  /-- `ofDecimal m k` is the number nearest to `m * 10 ^ k`. -/
  ofDecimal : Nat → Int → α
  lt : α → α → Bool
  le : α → α → Bool
  isNaN : α → Bool
  /-- Whether the sign is minus; true of a negative zero. A value that is not a number can have
  either sign. -/
  isNegative : α → Bool
  /-- Whether the fractional part is zero; false of infinities and of a value that is not a
  number. -/
  isWhole : α → Bool
  abs : α → α
  sqrt : α → α
  exp : α → α
  log : α → α
  log10 : α → α
  sin : α → α
  cos : α → α
  tan : α → α
  asin : α → α
  acos : α → α
  atan : α → α
  sinh : α → α
  cosh : α → α
  tanh : α → α
  asinh : α → α
  acosh : α → α
  atanh : α → α
  pow : α → α → α
  /-- The angle of the point with ordinate first and abscissa second. -/
  atan2 : α → α → α
  /-- The length of the hypotenuse. -/
  hypot : α → α → α

namespace Scalar

variable {α : Type} [Scalar α]

def two : α := one + one

def four : α := two + two

def half : α := one / two

def isInfinite (x : α) : Bool := abs x == infinity

def isFinite (x : α) : Bool := !isNaN x && !isInfinite x

end Scalar

/-- Number systems whose values have a written form. -/
class DecimalText (α : Type) where
  /-- The written form, with a minus in front of negative values only. -/
  render : α → String

/-- The written form with a sign always in front, except for a value that is not a number. -/
def DecimalText.renderSigned {α : Type} [Scalar α] [DecimalText α] (x : α) : String :=
  if Scalar.isNegative x || Scalar.isNaN x then render x else "+" ++ render x

end FormulaCalculus
