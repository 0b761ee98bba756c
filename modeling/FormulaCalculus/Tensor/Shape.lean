/-!
Shapes of tensors and their broadcasting rule: shapes are aligned on their last axes, and an axis
of length one stretches to the length it meets. A tensor is stretched only to a shape whose places
a signed machine word can address.
-/

namespace FormulaCalculus

/-- The lengths of the axes, outermost first. -/
abbrev Shape := List Nat

namespace Shape

/-- The shape of a value that has no shape of its own. -/
def scalar : Shape := [1]

/-- The number of entries of a tensor of this shape. -/
def volume : Shape → Nat
  | [] => 1
  | n :: s => n * volume s

/-- The number of entries with axes of length zero counted as axes of length one: what the steps
along the axes of a row-major layout multiply to, also where there is no entry. -/
def extent : Shape → Nat
  | [] => 1
  | n :: s => max n 1 * extent s

/-- Whether the extent is a signed machine word. -/
def isAddressable (s : Shape) : Bool := extent s ≤ 9223372036854775807

/-- The common length of two aligned axes. -/
def joinAxis (m n : Nat) : Option Nat :=
  if m = n ∨ n = 1 then some m else if m = 1 then some n else none

/-- The joint shape of two shapes written innermost axis first. -/
def joinInner : Shape → Shape → Option Shape
  | [], t => some t
  | s, [] => some s
  | m :: s, n :: t => do
    let k ← joinAxis m n
    let u ← joinInner s t
    return k :: u

/-- The shape two operands are stretched to, if there is one. -/
def join? (s t : Shape) : Option Shape :=
  (joinInner s.reverse t.reverse).map List.reverse

/-- The shape with axes of length one in front until it has as many axes as `t`. -/
def padTo (s t : Shape) : Shape := List.replicate (t.length - s.length) 1 ++ s

/-- Whether two shapes have as many axes and each axis of the first is as long as that of the
second or has length one. -/
def aligned : Shape → Shape → Bool
  | [], [] => true
  | m :: s, n :: t => (m == n || m == 1) && aligned s t
  | _, _ => false

/-- Whether a tensor of the first shape can be stretched to the second one. -/
def fits (s t : Shape) : Bool := aligned (padTo s t) t && isAddressable t

/-- The written form of a shape, its lengths in brackets. -/
def render (s : Shape) : String := "[" ++ ", ".intercalate (s.map fun n => toString n) ++ "]"

end Shape

end FormulaCalculus
