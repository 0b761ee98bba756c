import FormulaCalculus.Scalar.Basic
import FormulaCalculus.Scalar.Binary64
import FormulaCalculus.Scalar.Elementary

/-!
Double precision machine numbers as scalars. An operation without a result gives the undefined
value, which has a sign: the operations pass it on with that sign, a change of sign changes it, and
`Scalar.isNegative` is the only test that sees it.
-/

namespace FormulaCalculus

/-- A machine number: a number proper, infinite ones among them, or the undefined value with its
sign. -/
inductive Double where
  | nan (negative : Bool)
  | number (value : Float) (isNaN_value : value.isNaN = false)

namespace Double

/-- The result of an operation. Where it is undefined, its sign is minus. -/
def ofFloat (x : Float) : Double :=
  if h : x.isNaN = true then nan true else number x (eq_false_of_ne_true h)

/-- A function of one number; an undefined argument is passed on. -/
def lift (f : Float → Float) : Double → Double
  | nan s => nan s
  | number x _ => ofFloat (f x)

/-- A function of two numbers; the first undefined argument is passed on. -/
def lift₂ (f : Float → Float → Float) : Double → Double → Double
  | nan s, _ | number _ _, nan s => nan s
  | number x _, number y _ => ofFloat (f x y)

/-- A relation of two numbers; an undefined number is related to none. -/
def compare (r : Float → Float → Bool) : Double → Double → Bool
  | number x _, number y _ => r x y
  | _, _ => false

def decode : Double → Binary64
  | nan _ => .nan
  | number x _ => .ofFloat x

def neg : Double → Double
  | nan s => nan !s
  | number x _ => ofFloat (-x)

/-- The magnitude; that of an undefined value has sign plus. -/
def abs : Double → Double
  | nan _ => nan false
  | number x _ => ofFloat x.abs

def isNegative : Double → Bool
  | nan s => s
  | number x _ => x.toBits ≥ 0x8000000000000000

/-- Whether the number is whole and its half is not. -/
def isOdd (x : Float) : Bool := Binary64.isWhole x && !Binary64.isWhole (x / 2)

/-- The power. Any number to the power zero is one, and so is one to any power. Multiplied with
itself an odd number of times the undefined value loses its minus. -/
def pow : Double → Double → Double
  | nan s, number y _ => if y == 0 then ofFloat 1 else nan (s && !isOdd y)
  | number x _, nan s => if x == 1 then ofFloat 1 else nan s
  | x, y => lift₂ Float.pow x y

/-- The length of the hypotenuse; infinite as soon as one side is. -/
def hypot : Double → Double → Double
  | nan s, number y _ | number y _, nan s => if y.isInf then ofFloat (1 / 0) else nan s
  | x, y => lift₂ Elementary.hypot x y

end Double

instance : Scalar Double where
  add := .lift₂ (· + ·)
  sub := .lift₂ (· - ·)
  mul := .lift₂ (· * ·)
  div := .lift₂ (· / ·)
  neg := .neg
  beq := Double.compare (· == ·)
  zero := .ofFloat 0
  one := .ofFloat 1
  e := .ofFloat (Float.ofBits 0x4005bf0a8b145769)
  pi := .ofFloat (Float.ofBits 0x400921fb54442d18)
  ln10 := .ofFloat (Float.ofBits 0x40026bb1bbb55516)
  infinity := .ofFloat (1 / 0)
  nan := .nan false
  ofDecimal m k := .ofFloat (Binary64.ofDecimal m k)
  lt := Double.compare (· < ·)
  le := Double.compare (· ≤ ·)
  isNaN
    | .nan _ => true
    | .number _ _ => false
  isNegative := Double.isNegative
  isWhole
    | .nan _ => false
    | .number x _ => Binary64.isWhole x
  abs := .abs
  sqrt := .lift Float.sqrt
  exp := .lift Float.exp
  log := .lift Float.log
  log10 := .lift Float.log10
  sin := .lift Float.sin
  cos := .lift Float.cos
  tan := .lift Float.tan
  asin := .lift Float.asin
  acos := .lift Float.acos
  atan := .lift Float.atan
  sinh := .lift Float.sinh
  cosh := .lift Float.cosh
  tanh := .lift Float.tanh
  asinh := .lift Float.asinh
  acosh := .lift Float.acosh
  atanh := .lift Elementary.atanh
  pow := .pow
  atan2 := .lift₂ Float.atan2
  hypot := .hypot

instance : DecimalText Double where
  render x := x.decode.render

end FormulaCalculus
