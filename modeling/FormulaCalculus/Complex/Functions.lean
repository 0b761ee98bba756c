import FormulaCalculus.Complex.Basic

/-!
The elementary functions on complex numbers, each by a closed formula in the real functions. The
branch cut and the sign of each zero follow from the order of operations in the formula.
-/

namespace FormulaCalculus

namespace ComplexNumber

variable {α : Type} [Scalar α]

/-- The exponential. An infinite real part settles the result unless the direction of a finite
nonzero angle is needed. -/
def exp (z : ComplexNumber α) : ComplexNumber α :=
  if Scalar.isInfinite z.re then
    if Scalar.lt z.re Scalar.zero then
      if Scalar.isFinite z.im then polar (Scalar.exp z.re) z.im else zero
    else if z.im == Scalar.zero then z
    else if Scalar.isInfinite z.im then ⟨z.re, Scalar.nan⟩
    else if Scalar.isNaN z.im then z
    else polar (Scalar.exp z.re) z.im
  else if Scalar.isNaN z.re && z.isReal then z
  else polar (Scalar.exp z.re) z.im

/-- The principal logarithm. -/
def log (z : ComplexNumber α) : ComplexNumber α := ⟨Scalar.log z.norm, z.arg⟩

def log10 (z : ComplexNumber α) : ComplexNumber α := z.log.divReal Scalar.ln10

/-- The principal square root. On the negative real axis the sign of the zero imaginary part
chooses the side of the branch cut. -/
def sqrt (z : ComplexNumber α) : ComplexNumber α :=
  if z.isReal then
    if Scalar.isNegative z.re then
      let y := Scalar.sqrt (-z.re)
      ⟨Scalar.zero, if Scalar.isNegative z.im then -y else y⟩
    else ⟨Scalar.sqrt z.re, z.im⟩
  else if z.re == Scalar.zero then
    let x := Scalar.sqrt (Scalar.abs z.im / Scalar.two)
    ⟨x, if Scalar.isNegative z.im then -x else x⟩
  else polar (Scalar.sqrt z.norm) (z.arg / Scalar.two)

/-- The principal power; any number to the power zero is one. -/
def pow (z w : ComplexNumber α) : ComplexNumber α :=
  if w.isZero then one else (w * z.log).exp

def square (z : ComplexNumber α) : ComplexNumber α := z * z

def sin (z : ComplexNumber α) : ComplexNumber α :=
  ⟨Scalar.sin z.re * Scalar.cosh z.im, Scalar.cos z.re * Scalar.sinh z.im⟩

def cos (z : ComplexNumber α) : ComplexNumber α :=
  ⟨Scalar.cos z.re * Scalar.cosh z.im, -Scalar.sin z.re * Scalar.sinh z.im⟩

def tan (z : ComplexNumber α) : ComplexNumber α :=
  let a := z.re + z.re
  let b := z.im + z.im
  divReal ⟨Scalar.sin a, Scalar.sinh b⟩ (Scalar.cos a + Scalar.cosh b)

def asin (z : ComplexNumber α) : ComplexNumber α :=
  -unit * (sqrt (one - z * z) + unit * z).log

def acos (z : ComplexNumber α) : ComplexNumber α :=
  -unit * (unit * sqrt (one - z * z) + z).log

/-- The arc tangent, infinite at its two poles. -/
def atan (z : ComplexNumber α) : ComplexNumber α :=
  if z == unit then ⟨Scalar.zero, Scalar.infinity⟩
  else if z == -unit then ⟨Scalar.zero, -Scalar.infinity⟩
  else ((one + unit * z).log - (one - unit * z).log) / (two * unit)

def sinh (z : ComplexNumber α) : ComplexNumber α :=
  ⟨Scalar.sinh z.re * Scalar.cos z.im, Scalar.cosh z.re * Scalar.sin z.im⟩

def cosh (z : ComplexNumber α) : ComplexNumber α :=
  ⟨Scalar.cosh z.re * Scalar.cos z.im, Scalar.sinh z.re * Scalar.sin z.im⟩

def tanh (z : ComplexNumber α) : ComplexNumber α :=
  let a := z.re + z.re
  let b := z.im + z.im
  divReal ⟨Scalar.sinh a, Scalar.sin b⟩ (Scalar.cosh a + Scalar.cos b)

def asinh (z : ComplexNumber α) : ComplexNumber α := (z + sqrt (one + z * z)).log

def acosh (z : ComplexNumber α) : ComplexNumber α :=
  two * (sqrt ((z + one) / two) + sqrt ((z - one) / two)).log

/-- The inverse hyperbolic tangent, infinite at its two poles. -/
def atanh (z : ComplexNumber α) : ComplexNumber α :=
  if z == one then ⟨Scalar.infinity, Scalar.zero⟩
  else if z == -one then ⟨-Scalar.infinity, Scalar.zero⟩
  else ((one + z).log - (one - z).log) / two

end ComplexNumber

end FormulaCalculus
