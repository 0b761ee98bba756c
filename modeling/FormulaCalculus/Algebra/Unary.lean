import FormulaCalculus.Complex.Functions
import FormulaCalculus.Constant.Basic

/-!
Functions of one operand on constants. Each function has an exact entry for each symbol and a rule
for numbers: a real number inside the function's real domain stays real, any other number goes
through the complex function, and the result is flagged imaginary once it leaves the real line.
-/

namespace FormulaCalculus

/-- The function on real numbers. -/
def UnaryFn.real {α : Type} [Scalar α] : UnaryFn → α → α
  | neg => fun x => -x
  | abs => Scalar.abs
  | sqrt => Scalar.sqrt
  | square => fun x => x * x
  | exp => Scalar.exp
  | log => Scalar.log
  | log10 => Scalar.log10
  | sin => Scalar.sin
  | cos => Scalar.cos
  | tan => Scalar.tan
  | asin => Scalar.asin
  | acos => Scalar.acos
  | atan => Scalar.atan
  | sinh => Scalar.sinh
  | cosh => Scalar.cosh
  | tanh => Scalar.tanh
  | asinh => Scalar.asinh
  | acosh => Scalar.acosh
  | atanh => Scalar.atanh

/-- The function on complex numbers. -/
def UnaryFn.complex {α : Type} [Scalar α] : UnaryFn → ComplexNumber α → ComplexNumber α
  | neg => fun z => -z
  | abs => fun z => .ofReal z.norm
  | sqrt => .sqrt
  | square => .square
  | exp => .exp
  | log => .log
  | log10 => .log10
  | sin => .sin
  | cos => .cos
  | tan => .tan
  | asin => .asin
  | acos => .acos
  | atan => .atan
  | sinh => .sinh
  | cosh => .cosh
  | tanh => .tanh
  | asinh => .asinh
  | acosh => .acosh
  | atanh => .atanh

/-- Whether a real number is inside the function's real domain. -/
def UnaryFn.inDomain {α : Type} [Scalar α] : UnaryFn → α → Bool
  | sqrt => fun x => Scalar.le Scalar.zero x
  | log | log10 => fun x => Scalar.lt Scalar.zero x
  | asin | acos => fun x => Scalar.le (Scalar.abs x) Scalar.one
  | acosh => fun x => Scalar.le Scalar.one x
  | atanh => fun x => Scalar.lt (Scalar.abs x) Scalar.one
  | _ => fun _ => true

/-- Whether an unflagged real number outside the domain has no value, instead of a complex one. -/
def UnaryFn.isRealOnly : UnaryFn → Bool
  | log | log10 | acosh => true
  | _ => false

/-- The exact value of a function at a symbol. -/
inductive ExactValue (α : Type) where
  | zero | unity | negUnity | nan
  /-- A calculated real number. -/
  | real (x : α)
  /-- The imaginary unit. -/
  | imaginaryUnit

def ExactValue.toConstant {α : Type} [Scalar α] (shape : Shape) : ExactValue α → Constant α
  | zero => .zero shape
  | unity => .unity shape
  | negUnity => .negUnity shape
  | nan => .nan shape
  | real x => .calculated x shape
  | imaginaryUnit => .number ⟨.unit, true, shape⟩

namespace UnaryFn

variable {α : Type} [Scalar α]

/-- The function at zero. -/
def atZero : UnaryFn → ExactValue α
  | exp | cos | cosh => .unity
  | log | log10 | acosh => .nan
  | acos => .real (Scalar.pi / Scalar.two)
  | _ => .zero

/-- The function at one. -/
def atUnity : UnaryFn → ExactValue α
  | neg => .negUnity
  | abs | sqrt | square => .unity
  | exp => .real Scalar.e
  | log | log10 | acos | acosh => .zero
  | asin => .real (Scalar.pi / Scalar.two)
  | atan => .real (Scalar.pi / Scalar.four)
  | atanh => .nan
  | f => .real (f.real Scalar.one)

/-- The function at minus one. -/
def atNegUnity : UnaryFn → ExactValue α
  | neg | abs | square => .unity
  | sqrt => .imaginaryUnit
  | exp => .real (Scalar.one / Scalar.e)
  | log | log10 | acosh | atanh => .nan
  | asin => .real (-(Scalar.pi / Scalar.two))
  | acos => .real Scalar.pi
  | atan => .real (-(Scalar.pi / Scalar.four))
  | f => .real (f.real (-Scalar.one))

/-- The value of the function at a complex number, by the real function where it applies. -/
def numberValue (f : UnaryFn) (z : ComplexNumber α) : ComplexNumber α :=
  match z.asReal? with
  | some x => if f.inDomain x then .ofReal (f.real x) else f.complex z
  | none => f.complex z

/-- Whether the function has no value at a number. -/
def isUndefinedAt (f : UnaryFn) (n : Number α) : Bool :=
  f.isRealOnly && !n.imaginary && match n.asReal? with
    | some x => !f.inDomain x
    | none => false

/-- The function at a number. Negation keeps the flag, a distance is never imaginary, and any
other function raises the flag when its value is not real. -/
def atNumber (f : UnaryFn) (n : Number α) : Constant α :=
  match f with
  | neg => .ofNumber { n with value := -n.value }
  | abs => .calculated n.value.norm n.shape
  | _ =>
    if f.isUndefinedAt n then .nan n.shape
    else
      let z := f.numberValue n.value
      .ofNumber ⟨z, n.imaginary || !z.isReal, n.shape⟩

/-- The function at a constant; the shape is kept. -/
def onConstant (f : UnaryFn) : Constant α → Constant α
  | .zero s => f.atZero.toConstant s
  | .unity s => f.atUnity.toConstant s
  | .negUnity s => f.atNegUnity.toConstant s
  | .nan s => .nan s
  | .number n => f.atNumber n

end UnaryFn

end FormulaCalculus
