/-!
The shortest decimal that names a binary number. A binary number is known by the interval of reals
that round to it; the shortest decimal is the one with the fewest digits inside that interval, and
the nearest of those. All comparisons are exact.
-/

namespace FormulaCalculus

/-- The number `digits * 10 ^ exponent`. -/
structure Decimal where
  digits : Nat
  exponent : Int
  deriving DecidableEq

/-- The reals that round to a binary number, all in units of `2 ^ exponent`. The ends belong to
the interval when it is closed. -/
structure RoundingInterval where
  exponent : Int
  lower : Nat
  center : Nat
  upper : Nat
  closed : Bool

namespace Decimal

/-- The number of digits of a natural number written in base ten. -/
def width (n : Nat) : Nat := (Nat.toDigits 10 n).length

/-- The exponent of the leading digit of `m * 2 ^ q`, for positive `m`. A negative power of two is
the same power of five, moved by as many decimal places. -/
def leadingExponent (m : Nat) (q : Int) : Int :=
  (width (m * Nat.pow 2 q.toNat * Nat.pow 5 (-q).toNat) : Int) - 1 - (-q).toNat

/-- A fraction equal to `2 ^ q / 10 ^ k`. -/
def unitRatio (q k : Int) : Nat × Nat :=
  (Nat.pow 2 q.toNat * Nat.pow 10 (-k).toNat, Nat.pow 2 (-q).toNat * Nat.pow 10 k.toNat)

/-- Drops trailing zeros while the last digit stands behind the point. -/
def trimmed : Nat → Nat → Int → Decimal
  | 0, d, k => ⟨d, k⟩
  | n + 1, d, k => if d % 10 = 0 ∧ k < 0 then trimmed n (d / 10) (k + 1) else ⟨d, k⟩

end Decimal

namespace RoundingInterval

open Decimal

/-- Whether `d * 10 ^ k` lies in the interval. -/
def contains (i : RoundingInterval) (d : Nat) (k : Int) : Bool :=
  let (a, b) := unitRatio i.exponent k
  if i.closed then i.lower * a ≤ d * b && d * b ≤ i.upper * a
  else i.lower * a < d * b && d * b < i.upper * a

/-- The decimal on the grid of `10 ^ k` that names the interval, if one of the two neighbours of
the centre does. Of two, the nearer is taken, and the larger when both are as near. -/
def onGrid? (i : RoundingInterval) (k : Int) : Option Decimal :=
  let (a, b) := unitRatio i.exponent k
  let d := i.center * a / b
  let below := i.contains d k
  let above := i.contains (d + 1) k
  let isNearerBelow : Bool := 2 * (i.center * a) < (2 * d + 1) * b
  if below && (!above || isNearerBelow) then some ⟨d, k⟩
  else if above then some ⟨d + 1, k⟩
  else none

/-- The shortest decimal in the interval with at most seventeen digits. -/
def shortest (i : RoundingInterval) : Decimal :=
  let top := leadingExponent i.center i.exponent
  match (List.range 17).findSome? fun (n : Nat) => i.onGrid? (top - n) with
  | some r => trimmed 17 r.digits r.exponent
  | none => ⟨i.center, i.exponent⟩

end RoundingInterval

/-- The positional written form, without an exponent and without a trailing point. -/
def Decimal.render (r : Decimal) : String :=
  let digits := Nat.toDigits 10 r.digits
  let places := (-r.exponent).toNat
  let padded := List.replicate (places + 1 - digits.length) '0' ++ digits
  let whole := padded.take (padded.length - places)
  let fraction := padded.drop (padded.length - places)
  String.ofList (whole ++ List.replicate r.exponent.toNat '0' ++
    if fraction.isEmpty then [] else '.' :: fraction)

end FormulaCalculus
