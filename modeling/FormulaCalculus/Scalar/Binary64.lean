import FormulaCalculus.Decimal.Shortest

/-!
Double precision numbers, decoded into a sign and an exact binary number, from which their written
form is found; and the rounding of exact numbers, decimal and binary, to doubles.
-/

namespace FormulaCalculus

/-- A machine number, decoded. -/
inductive Binary64 where
  | nan
  | infinity (negative : Bool)
  /-- The number `mantissa * 2 ^ exponent` with a sign. -/
  | finite (negative : Bool) (mantissa : Nat) (exponent : Int)

namespace Binary64

/-- The exponent of the smallest positive number. -/
def leastExponent : Int := -1074

/-- The mantissa of the smallest number of a binade. -/
def hiddenBit : Nat := 4503599627370496

def ofFloat (x : Float) : Binary64 :=
  let bits := x.toBits.toNat
  let negative := bits ≥ 9223372036854775808
  let biased := bits / hiddenBit % 2048
  let fraction := bits % hiddenBit
  if biased = 2047 then if fraction = 0 then infinity negative else nan
  else if biased = 0 then finite negative fraction leastExponent
  else finite negative (hiddenBit + fraction) (leastExponent + biased - 1)

/-- The reals that round to `m * 2 ^ q`. Below the smallest number of a binade the grid is twice as
fine. -/
def interval (m : Nat) (q : Int) : RoundingInterval where
  exponent := q - 2
  lower := if m = hiddenBit ∧ leastExponent < q then 4 * m - 1 else 4 * m - 2
  center := 4 * m
  upper := 4 * m + 2
  closed := m % 2 = 0

/-- The shortest written form that reads back, never with an exponent. -/
def render : Binary64 → String
  | nan => "NaN"
  | infinity negative => if negative then "-inf" else "inf"
  | finite negative m q =>
    let magnitude := if m = 0 then "0" else (interval m q).shortest.render
    if negative then "-" ++ magnitude else magnitude

/-- The number nearest to `digits * 10 ^ exponent`. Exponents far outside the range are settled
without forming the power. -/
def ofDecimal (m : Nat) (k : Int) : Float :=
  let top := (Decimal.width m : Int) + k
  if m = 0 ∨ top < -400 then 0
  else if top > 400 then 1 / 0
  else Float.ofScientific m (k < 0) k.natAbs

/-- The number nearest to `n * 2 ^ q`, to even on a tie. The grid is that of the leading bit, and
never finer than that of the smallest positive number; on it the mantissa is exact. -/
def ofBinary (n : Nat) (q : Int) : Float :=
  let grid := max (Nat.log2 n + q - 52) leastExponent
  let unit := Nat.pow 2 (grid - q).toNat
  let rest := n % unit
  let up := unit < 2 * rest ∨ (2 * rest = unit ∧ n / unit % 2 = 1)
  (Float.ofNat (if up then n / unit + 1 else n / unit)).scaleB (max grid q)

/-- The integer that makes up a number `n * 2 ^ q` in units of `2 ^ least`, for `least` at most
`q`. -/
def inUnits (negative : Bool) (n : Nat) (q least : Int) : Int :=
  let magnitude : Int := n * Nat.pow 2 (q - least).toNat
  if negative then -magnitude else magnitude

/-- The sum of a product and a number, rounded once. -/
def mulAdd (x y z : Float) : Float :=
  match ofFloat x, ofFloat y, ofFloat z with
  | finite r l o, finite s m p, finite t n q =>
    let least := min (o + p) q
    let sum := inUnits (r != s) (l * m) (o + p) least + inUnits t n q least
    let magnitude := ofBinary sum.natAbs least
    if sum < 0 then -magnitude else magnitude
  | _, _, _ => x * y + z

/-- Whether the number has no fractional part. -/
def isWhole (x : Float) : Bool :=
  let whole := if x < 0 then x.ceil else x.floor
  x - whole == 0

end Binary64

end FormulaCalculus
