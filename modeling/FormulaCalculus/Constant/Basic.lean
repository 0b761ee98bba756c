import FormulaCalculus.Complex.Basic
import FormulaCalculus.Operation
import FormulaCalculus.Tensor.Shape

/-!
Exactly known values. Zero, one, minus one and the undefined value are kept as symbols of their
own, so that a calculation with them stays exact; every other value is a complex number. Each
constant carries the shape it is broadcast to.
-/

namespace FormulaCalculus

/-- A complex number with a shape. The flag `imaginary` records that the number came out of an
imaginary calculation, also when its imaginary part is zero. -/
structure Number (α : Type) where
  value : ComplexNumber α
  imaginary : Bool
  shape : Shape

namespace Number

variable {α : Type} [Scalar α]

instance : BEq (Number α) where
  beq m n := m.value == n.value && m.imaginary == n.imaginary && m.shape == n.shape

def ofReal (x : α) : Number α := ⟨.ofReal x, false, Shape.scalar⟩

/-- The number `y` times the imaginary unit. -/
def ofImaginary (y : α) : Number α := ⟨⟨Scalar.zero, y⟩, true, Shape.scalar⟩

def asReal? (n : Number α) : Option α := n.value.asReal?

end Number

/-- A symbol for an exactly known value, or a number. -/
inductive Constant (α : Type) where
  | zero (shape : Shape)
  | unity (shape : Shape)
  | negUnity (shape : Shape)
  | nan (shape : Shape)
  | number (n : Number α)

namespace Constant

variable {α : Type} [Scalar α]

/-- Two constants are equal when they are of one kind and shape, and as numbers compare equal. -/
instance : BEq (Constant α) where
  beq
    | zero s, zero t => s == t
    | unity s, unity t => s == t
    | negUnity s, negUnity t => s == t
    | nan s, nan t => s == t
    | number m, number n => m == n
    | _, _ => false

def ofReal (x : α) : Constant α := number (.ofReal x)

/-- The constant that stands for a calculated number: an unflagged real zero, one, minus one or
undefined value becomes its symbol. -/
def ofNumber (n : Number α) : Constant α :=
  if n.imaginary || !n.value.isReal then number n
  else if n.value.re == Scalar.zero then zero n.shape
  else if n.value.re == Scalar.one then unity n.shape
  else if n.value.re == -(Scalar.one : α) then negUnity n.shape
  else if Scalar.isNaN n.value.re then nan n.shape
  else number n

/-- The constant that stands for a calculated real number. -/
def calculated (x : α) (shape : Shape) : Constant α := ofNumber ⟨.ofReal x, false, shape⟩

omit [Scalar α] in
/-- The id of the constant's token. -/
def id : Constant α → TokenId
  | zero _ => TokenId.zero
  | unity _ => TokenId.unity
  | negUnity _ => TokenId.negUnity
  | nan _ => TokenId.nan
  | number _ => TokenId.number

omit [Scalar α] in
def shape : Constant α → Shape
  | zero s | unity s | negUnity s | nan s => s
  | number n => n.shape

omit [Scalar α] in
/-- The same constant with another shape. -/
def withShape (s : Shape) : Constant α → Constant α
  | zero _ => zero s
  | unity _ => unity s
  | negUnity _ => negUnity s
  | nan _ => nan s
  | number n => number { n with shape := s }

/-- The value the constant stands for. -/
def value : Constant α → ComplexNumber α
  | zero _ => .ofReal Scalar.zero
  | unity _ => .ofReal Scalar.one
  | negUnity _ => .ofReal (-Scalar.one)
  | nan _ => .ofReal Scalar.nan
  | number n => n.value

omit [Scalar α] in
/-- Whether the constant is flagged imaginary. -/
def isImaginary : Constant α → Bool
  | number n => n.imaginary
  | _ => false

/-- The constant as a number of the same shape. -/
def toNumber : Constant α → Number α
  | number n => n
  | c => ⟨c.value, false, c.shape⟩

omit [Scalar α] in
/-- Whether the constant is the symbol for zero. -/
def isZero : Constant α → Bool
  | zero _ => true
  | _ => false

omit [Scalar α] in
/-- Whether the constant is the symbol for one. -/
def isUnity : Constant α → Bool
  | unity _ => true
  | _ => false

end Constant

end FormulaCalculus
