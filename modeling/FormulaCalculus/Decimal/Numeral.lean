import FormulaCalculus.Scalar.Basic

/-!
The grammar of decimal numerals: an optional sign, then a word for infinity or for the value that
is not a number, or digits with an optional point and an optional exponent.
-/

namespace FormulaCalculus

inductive Numeral where
  | nan
  | infinity (negative : Bool)
  /-- The number `digits * 10 ^ exponent` with a sign. -/
  | decimal (negative : Bool) (digits : Nat) (exponent : Int)
  deriving DecidableEq

namespace Numeral

/-- The number written by a list of decimal digits. -/
def natOfDigits (cs : List Char) : Nat := cs.foldl (fun n c => 10 * n + (c.toNat - '0'.toNat)) 0

/-- Splits off the digits in front. -/
def digits (cs : List Char) : List Char × List Char :=
  (cs.takeWhile Char.isDigit, cs.dropWhile Char.isDigit)

/-- Splits off a sign in front; true stands for a minus. -/
def sign : List Char → Bool × List Char
  | '-' :: cs => (true, cs)
  | '+' :: cs => (false, cs)
  | cs => (false, cs)

/-- The exponent at the end of a numeral: nothing, or a letter `e` and digits with an optional
sign. -/
def exponent? : List Char → Option Int
  | [] => some 0
  | c :: cs =>
    let (negative, ds) := sign cs
    if (c == 'e' || c == 'E') && !ds.isEmpty && ds.all Char.isDigit then
      some (if negative then -(natOfDigits ds : Int) else natOfDigits ds)
    else none

/-- A numeral without sign: digits, on at least one side of an optional point, and an exponent. -/
def unsigned? (negative : Bool) (cs : List Char) : Option Numeral :=
  let (whole, rest) := digits cs
  let (fraction, rest) := match rest with
    | '.' :: rest => digits rest
    | rest => ([], rest)
  if whole.isEmpty && fraction.isEmpty then none
  else (exponent? rest).map fun k =>
    decimal negative (natOfDigits (whole ++ fraction)) (k - fraction.length)

/-- Reads a numeral that fills the whole text. -/
def parse? (cs : List Char) : Option Numeral :=
  let (negative, rest) := sign cs
  let word := rest.map Char.toLower
  if word = "nan".toList then some nan
  else if word = "inf".toList || word = "infinity".toList then some (infinity negative)
  else unsigned? negative rest

/-- The number that a numeral stands for. -/
def value {α : Type} [Scalar α] : Numeral → α
  | nan => Scalar.nan
  | infinity negative => if negative then -Scalar.infinity else Scalar.infinity
  | decimal negative m k => if negative then -Scalar.ofDecimal m k else Scalar.ofDecimal m k

end Numeral

end FormulaCalculus
