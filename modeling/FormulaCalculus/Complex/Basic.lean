import FormulaCalculus.Scalar.Basic

/-!
Complex numbers in rectangular form over any scalars. Every operation is given by its formula on
the two parts, because in rounded arithmetic the formula decides the signs of zeros.
-/

namespace FormulaCalculus

structure ComplexNumber (α : Type) where
  re : α
  im : α

namespace ComplexNumber

variable {α : Type} [Scalar α]

def ofReal (x : α) : ComplexNumber α := ⟨x, Scalar.zero⟩

def zero : ComplexNumber α := ofReal Scalar.zero

def one : ComplexNumber α := ofReal Scalar.one

def two : ComplexNumber α := ofReal Scalar.two

/-- The imaginary unit. -/
def unit : ComplexNumber α := ⟨Scalar.zero, Scalar.one⟩

instance : BEq (ComplexNumber α) where
  beq z w := z.re == w.re && z.im == w.im

instance : Add (ComplexNumber α) where
  add z w := ⟨z.re + w.re, z.im + w.im⟩

instance : Sub (ComplexNumber α) where
  sub z w := ⟨z.re - w.re, z.im - w.im⟩

instance : Neg (ComplexNumber α) where
  neg z := ⟨-z.re, -z.im⟩

instance : Mul (ComplexNumber α) where
  mul z w := ⟨z.re * w.re - z.im * w.im, z.re * w.im + z.im * w.re⟩

instance : Div (ComplexNumber α) where
  div z w :=
    let n := w.re * w.re + w.im * w.im
    ⟨(z.re * w.re + z.im * w.im) / n, (z.im * w.re - z.re * w.im) / n⟩

/-- Whether the imaginary part is zero. -/
def isReal (z : ComplexNumber α) : Bool := z.im == Scalar.zero

def isZero (z : ComplexNumber α) : Bool := z == zero

/-- The real part of a number whose imaginary part is zero. -/
def asReal? (z : ComplexNumber α) : Option α := if z.isReal then some z.re else none

/-- The sum with a real number; the imaginary part is left as it is. -/
def addReal (z : ComplexNumber α) (x : α) : ComplexNumber α := ⟨z.re + x, z.im⟩

/-- The difference with a real number; the imaginary part is left as it is. -/
def subReal (z : ComplexNumber α) (x : α) : ComplexNumber α := ⟨z.re - x, z.im⟩

def divReal (z : ComplexNumber α) (x : α) : ComplexNumber α := ⟨z.re / x, z.im / x⟩

/-- The distance from the origin. -/
def norm (z : ComplexNumber α) : α := Scalar.hypot z.re z.im

/-- The angle from the positive real axis. -/
def arg (z : ComplexNumber α) : α := Scalar.atan2 z.im z.re

/-- The number at distance `r` from the origin and angle `t`. -/
def polar (r t : α) : ComplexNumber α := ⟨r * Scalar.cos t, r * Scalar.sin t⟩

end ComplexNumber

end FormulaCalculus
