import FormulaCalculus.Algebra.Error
import FormulaCalculus.Complex.Functions
import FormulaCalculus.Tensor.Basic

/-!
Functions of two operands on constants. Combinations of symbols are answered exactly; numbers are
calculated on the real line while both are real. Division by zero is the undefined value however
the zero is written, and the undefined value absorbs everything except a power of exponent zero.
-/

namespace FormulaCalculus

/-- The function on real numbers. -/
def BinaryFn.real {α : Type} [Scalar α] : BinaryFn → α → α → α
  | add => fun x y => x + y
  | sub => fun x y => x - y
  | mul => fun x y => x * y
  | div => fun x y => x / y
  | pow => Scalar.pow
  | atan2 => Scalar.atan2

namespace Number

variable {α : Type} [Scalar α]

/-- Combines two numbers, on the real line when both are real. -/
def combine (realOp : α → α → α) (complexOp : ComplexNumber α → ComplexNumber α → ComplexNumber α)
    (m n : Number α) (shape : Shape) : Constant α :=
  let z := match m.asReal?, n.asReal? with
    | some x, some y => .ofReal (realOp x y)
    | _, _ => complexOp m.value n.value
  .ofNumber ⟨z, m.imaginary || n.imaginary, shape⟩

def add (m n : Number α) (shape : Shape) : Constant α :=
  combine (fun x y => x + y) (fun z w => z + w) m n shape

def sub (m n : Number α) (shape : Shape) : Constant α :=
  combine (fun x y => x - y) (fun z w => z - w) m n shape

def mul (m n : Number α) (shape : Shape) : Constant α :=
  combine (fun x y => x * y) (fun z w => z * w) m n shape

def div (m n : Number α) (shape : Shape) : Constant α :=
  combine (fun x y => x / y) (fun z w => z / w) m n shape

/-- The power of two complex numbers, by the real function when both are real and either the base
is not negative or the exponent is whole. -/
def powValue (z w : ComplexNumber α) : ComplexNumber α :=
  if z.isReal && w.isReal && (Scalar.le Scalar.zero z.re || Scalar.isWhole w.re) then
    .ofReal (Scalar.pow z.re w.re)
  else z.pow w

def pow (m n : Number α) (shape : Shape) : Constant α :=
  let z := powValue m.value n.value
  .ofNumber ⟨z, m.imaginary || n.imaginary || !z.isReal, shape⟩

end Number

namespace Constant

variable {α : Type} [Scalar α]

/-- The constant with the opposite value, in a given shape. -/
def negIn (shape : Shape) : Constant α → Constant α
  | zero _ => zero shape
  | unity _ => negUnity shape
  | negUnity _ => unity shape
  | nan _ => nan shape
  | number n => ofNumber ⟨-n.value, n.imaginary, shape⟩

def addIn (shape : Shape) : Constant α → Constant α → Constant α
  | nan _, _ | _, nan _ => nan shape
  | zero _, c | c, zero _ => c.withShape shape
  | negUnity _, negUnity _ => calculated (-Scalar.two) shape
  | negUnity _, unity _ | unity _, negUnity _ => zero shape
  | unity _, unity _ => calculated Scalar.two shape
  | negUnity _, number n | number n, negUnity _ =>
    ofNumber ⟨n.value.subReal Scalar.one, n.imaginary, shape⟩
  | unity _, number n | number n, unity _ =>
    ofNumber ⟨n.value.addReal Scalar.one, n.imaginary, shape⟩
  | number m, number n => m.add n shape

def subIn (shape : Shape) : Constant α → Constant α → Constant α
  | nan _, _ | _, nan _ => nan shape
  | number m, number n => m.sub n shape
  | c, d => c.addIn shape (d.negIn shape)

def mulIn (shape : Shape) : Constant α → Constant α → Constant α
  | nan _, _ | _, nan _ => nan shape
  | zero _, _ | _, zero _ => zero shape
  | unity _, c | c, unity _ => c.withShape shape
  | negUnity _, negUnity _ => unity shape
  | negUnity _, number n | number n, negUnity _ => ofNumber ⟨-n.value, n.imaginary, shape⟩
  | number m, number n => m.mul n shape

/-- Whether the constant's value is exactly zero. -/
def hasZeroValue : Constant α → Bool
  | zero _ => true
  | number n => n.value.isZero
  | _ => false

/-- Division by a divisor whose value is not zero. -/
def divNonzeroIn (shape : Shape) : Constant α → Constant α → Constant α
  | nan _, _ | _, nan _ => nan shape
  | zero _, _ => zero shape
  | c, unity _ => c.withShape shape
  | c, negUnity _ => c.negIn shape
  | unity _, number n => (Number.ofReal Scalar.one).div n shape
  | negUnity _, number n => (Number.ofReal (-Scalar.one)).div n shape
  | number m, number n => m.div n shape
  | _, zero _ => nan shape

def divIn (shape : Shape) (c d : Constant α) : Constant α :=
  if d.hasZeroValue then nan shape else divNonzeroIn shape c d

/-- The power of zero: one for exponent zero, zero for an exponent with positive real part, and
undefined otherwise. -/
def powOfZeroIn (shape : Shape) : Constant α → Constant α
  | zero _ => unity shape
  | unity _ => zero shape
  | negUnity _ | nan _ => nan shape
  | number n =>
    if Scalar.lt Scalar.zero n.value.re then zero shape
    else if n.value.isZero then unity shape
    else nan shape

/-- The power of a base whose value is not zero. -/
def powNonzeroIn (shape : Shape) : Constant α → Constant α → Constant α
  | zero _, d => d.powOfZeroIn shape
  | unity _, nan _ => nan shape
  | unity _, _ => unity shape
  | negUnity _, zero _ => unity shape
  | negUnity _, unity _ | negUnity _, negUnity _ => negUnity shape
  | negUnity _, nan _ => nan shape
  | negUnity _, number n => (Number.ofReal (-Scalar.one)).pow n shape
  | nan _, zero _ => unity shape
  | nan _, _ => nan shape
  | number _, zero _ => unity shape
  | number m, unity _ => ofNumber { m with shape }
  | number m, negUnity _ => (Number.ofReal Scalar.one).div m shape
  | number _, nan _ => nan shape
  | number m, number n => m.pow n shape

def powIn (shape : Shape) (c d : Constant α) : Constant α :=
  if c.hasZeroValue then d.powOfZeroIn shape else powNonzeroIn shape c d

/-- The real part of a coordinate of a point in the plane. -/
def coordinate (c : Constant α) : Except (AlgebraError α) α :=
  match c.value.asReal? with
  | some x => .ok x
  | none => .error (.unsupported (.angleOfComplex c))

def atan2In (shape : Shape) : Constant α → Constant α → Except (AlgebraError α) (Constant α)
  | nan _, _ | _, nan _ => .ok (nan shape)
  | c, d => do
    let y ← c.coordinate
    let x ← d.coordinate
    return calculated (Scalar.atan2 y x) shape

end Constant

/-- The function on two constants; the result has the joint shape of the operands. -/
def BinaryFn.onConstants {α : Type} [Scalar α] (f : BinaryFn) (c d : Constant α) :
    Except (AlgebraError α) (Constant α) := do
  let shape ← Tensor.joinShapes c.shape d.shape
  match f with
  | add => return c.addIn shape d
  | sub => return c.subIn shape d
  | mul => return c.mulIn shape d
  | div => return c.divIn shape d
  | pow => return c.powIn shape d
  | atan2 => c.atan2In shape d

end FormulaCalculus
