import FormulaCalculus.Constant.Basic
import FormulaCalculus.Decimal.Numeral

/-!
Number literals: digits, an optional fraction, an optional exponent, and an optional letter `i`
that makes the literal imaginary. A fraction or exponent without digits does not belong to the
literal.
-/

namespace FormulaCalculus

/-- A literal at the front of a text. -/
structure Literal where
  digits : List Char
  imaginary : Bool
  deriving DecidableEq

namespace Literal

/-- The fraction in front of a text: a point and at least one digit, or nothing. -/
def fraction : List Char → List Char
  | '.' :: cs =>
    let digits := cs.takeWhile Char.isDigit
    if digits.isEmpty then [] else '.' :: digits
  | _ => []

/-- The sign in front of a text, if there is one. -/
def signText : List Char → List Char
  | '-' :: _ => ['-']
  | '+' :: _ => ['+']
  | _ => []

/-- The exponent in front of a text: a letter `e`, an optional sign and at least one digit, or
nothing. -/
def exponent : List Char → List Char
  | c :: cs =>
    let sign := signText cs
    let ds := (cs.drop sign.length).takeWhile Char.isDigit
    if (c == 'e' || c == 'E') && !ds.isEmpty then c :: (sign ++ ds) else []
  | [] => []

/-- The numeral in front of a text; empty unless the text starts with a digit. -/
def mantissa (cs : List Char) : List Char :=
  let whole := cs.takeWhile Char.isDigit
  if whole.isEmpty then []
  else
    let f := fraction (cs.drop whole.length)
    whole ++ f ++ exponent (cs.drop (whole.length + f.length))

/-- The literal in front of a text. -/
def ofPrefix? (cs : List Char) : Option Literal :=
  let digits := mantissa cs
  if digits.isEmpty then none
  else some ⟨digits, (cs.drop digits.length).head? == some 'i'⟩

/-- The characters the literal is written with. -/
def text (l : Literal) : List Char := l.digits ++ if l.imaginary then ['i'] else []

/-- The constant a literal stands for, unless its digits are no numeral. Real zero and one become
their symbols. -/
def constant? {α : Type} [Scalar α] (l : Literal) : Option (Constant α) :=
  (Numeral.parse? l.digits).map fun n =>
    let x : α := n.value
    if l.imaginary then .number (.ofImaginary x)
    else if x == Scalar.zero then .zero Shape.scalar
    else if x == Scalar.one then .unity Shape.scalar
    else .ofReal x

end Literal

end FormulaCalculus
