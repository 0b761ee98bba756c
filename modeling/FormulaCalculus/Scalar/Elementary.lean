import FormulaCalculus.Scalar.Binary64

/-!
Elementary functions of doubles beside those of the machine: the hypotenuse, the logarithm of one
plus a number, and the inverse hyperbolic tangent. Each is a formula whose intermediate roundings
are corrected, so that the error stays within one unit in the last place; the last digit depends on
the order of the operations.
-/

namespace FormulaCalculus

open Binary64 (mulAdd)

namespace Elementary

/-- The hypotenuse over sides `x` and `y`, the longer one first, whose squares are neither too large
nor too small. What the square of the rounded root exceeds `x * x + y * y` by is computed on
differences of nearby numbers, and taken off by one step of Newton's method. -/
def hypotInRange (x y : Float) : Float :=
  let h := (x * x + y * y).sqrt
  let excess :=
    if h ≤ 2 * y then
      let d := h - y
      x * (2 * d - x) + (d - 2 * (x - y)) * d
    else
      let d := h - x
      2 * d * (x - 2 * y) + ((4 * d - y) * y + d * d)
  h - excess / (2 * h)

/-- The hypotenuse; infinite as soon as one side is. A side too short to count is added to the
other one, and sides with extreme squares are scaled by a power of two. -/
def hypot (x y : Float) : Float :=
  let long := if x.abs < y.abs then y.abs else x.abs
  let short := if x.abs < y.abs then x.abs else y.abs
  if x.isInf || y.isInf then 1 / 0
  else if short.scaleB 54 ≤ long then long + short
  else
    let scale := if long > Float.scaleB 1 511 then -600
      else if short < Float.scaleB 1 (-459) then 600
      else 0
    (hypotInRange (long.scaleB scale) (short.scaleB scale)).scaleB (-scale)

/-- The part beyond the square of the series of the logarithm, a polynomial in the square of
`f / (2 + f)`. Its terms are added with one rounding each. -/
def logTail (z : Float) : Float :=
  let z2 := z * z
  let z4 := z2 * z2
  let low := mulAdd z 0.6666666666666735 (z2 * mulAdd z 0.2857142874366239 0.3999999999940942)
  let middle := mulAdd z4 (mulAdd z 0.1818357216161805 0.22222198432149784) low
  mulAdd (z2 * z4) (mulAdd z 0.14798198605116586 0.15313837699209373) middle

/-- The sum of `k` logarithms of two, the logarithm of `1 + f` for a small `f`, and a correction
`c`. The logarithm of two comes in two parts, of which the first has products with `k` without
rounding. -/
def logSum (k f c : Float) : Float :=
  let half := 0.5 * f * f
  let s := f / (2 + f)
  let low := mulAdd k 1.9082149292705877e-10 c
  k * 0.6931471803691238 - ((half - (low + s * (half + logTail (s * s)))) - f)

/-- The logarithm of `1 + x`. A sum `1 + x` far from one is split into a power of two and a factor
near one, and what is lost in rounding the sum comes back as a correction. -/
def logOnePlus (x : Float) : Float :=
  let u := 1 + x
  if !(u > 0) || u.isInf then u.log
  else if x.abs < Float.scaleB 1 (-29) then x - x * x * 0.5
  else if -0.2928934097290039 < x && x < 0.4142136573791504 then logSum 0 x 0
  else
    let lost := if u < 2 then x - (u - 1) else 1 - (u - x)
    let (m, k) := u.frExp
    if 2 * m < 1.4142131805419922 then logSum (Float.ofInt (k - 1)) (2 * m - 1) (lost / u)
    else logSum (Float.ofInt k) (m - 1) (lost / u)

/-- The inverse hyperbolic tangent, half the logarithm of `(1 + x) / (1 - x)`. -/
def atanh (x : Float) : Float := 0.5 * logOnePlus (2 * x / (1 - x))

end Elementary

end FormulaCalculus
