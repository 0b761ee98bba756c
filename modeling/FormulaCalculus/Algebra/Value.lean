import FormulaCalculus.Algebra.Binary
import FormulaCalculus.Algebra.Unary

/-!
Results of a calculation: a real tensor, or an exactly known constant. A function of a tensor and
a constant is answered by a symbol where the result is known exactly, and entry by entry with the
constant's real value otherwise. A number with an imaginary part cannot enter a tensor.
-/

namespace FormulaCalculus

/-- A tensor, or a symbol for an exactly known constant. -/
inductive Value (α : Type) where
  | tensor (a : Tensor α)
  | symbol (c : Constant α)

namespace Value

variable {α : Type} [Scalar α]

omit [Scalar α] in
def shape : Value α → Shape
  | tensor a => a.shape
  | symbol c => c.shape

omit [Scalar α] in
/-- Whether the result is the symbol for zero. -/
def isZero : Value α → Bool
  | tensor _ => false
  | symbol c => c.isZero

omit [Scalar α] in
def tensor? : Value α → Option (Tensor α)
  | tensor a => some a
  | symbol _ => none

omit [Scalar α] in
def constant? : Value α → Option (Constant α)
  | tensor _ => none
  | symbol c => some c

/-- The real value of a constant that enters a tensor operation of the given name. -/
def realPart (operation : String) (c : Constant α) : Except (AlgebraError α) α :=
  match c.value.asReal? with
  | some x => .ok x
  | none => .error (.complexMaterialization c.value operation)

/-- The result as a real tensor; a symbol becomes a tensor filled with its value. -/
def toTensor : Value α → Except (AlgebraError α) (Tensor α)
  | tensor a => .ok a
  | symbol c => do Tensor.filled c.shape (← realPart "materialize" c)

end Value

namespace Tensor

variable {α : Type} [Scalar α]

/-- Maps the entries, stretched to the joint shape with a constant. -/
def combineWith (f : α → α) (a : Tensor α) (c : Constant α) :
    Except (AlgebraError α) (Value α) := do
  return .tensor (← a.mapIn f c.shape)

/-- Whether every entry can divide the symbol zero with result zero. -/
def isDivisor (a : Tensor α) : Bool := a.data.all fun x => !(x == Scalar.zero) && !Scalar.isNaN x

end Tensor

namespace BinaryFn

variable {α : Type} [Scalar α]

/-- The function on a tensor and a constant. -/
def onTensorConstant (f : BinaryFn) (a : Tensor α) (c : Constant α) :
    Except (AlgebraError α) (Value α) := do
  let shape ← Tensor.joinShapes a.shape c.shape
  match f, c with
  | _, .nan _ => return .symbol (.nan shape)
  | add, .zero _ | sub, .zero _ => a.combineWith (fun x => x) c
  | mul, .zero _ => return .symbol (.zero shape)
  | div, .zero _ => return .symbol (.nan shape)
  | pow, .zero _ => return .symbol (.unity shape)
  | mul, .unity _ | div, .unity _ | pow, .unity _ => a.combineWith (fun x => x) c
  | mul, .negUnity _ | div, .negUnity _ => a.combineWith (fun x => -x) c
  | pow, .negUnity _ => a.combineWith (fun x => Scalar.one / x) c
  | f, c => do
    let y ← Value.realPart f.name c
    a.combineWith (fun x => f.real x y) c

/-- The function on a constant and a tensor. -/
def onConstantTensor (f : BinaryFn) (c : Constant α) (a : Tensor α) :
    Except (AlgebraError α) (Value α) := do
  let shape ← Tensor.joinShapes c.shape a.shape
  match f, c with
  | _, .nan _ => return .symbol (.nan shape)
  | add, .zero _ => a.combineWith (fun x => x) c
  | sub, .zero _ => a.combineWith (fun x => -x) c
  | mul, .zero _ => return .symbol (.zero shape)
  | div, .zero _ =>
    if a.isDivisor then return .symbol (.zero shape)
    else a.combineWith (fun x => Scalar.zero / x) c
  | mul, .unity _ => a.combineWith (fun x => x) c
  | mul, .negUnity _ => a.combineWith (fun x => -x) c
  | pow, .unity _ => return .symbol (.unity shape)
  | f, c => do
    let x ← Value.realPart f.name c
    a.combineWith (fun y => f.real x y) c

/-- The function on two results. -/
def onValues (f : BinaryFn) : Value α → Value α → Except (AlgebraError α) (Value α)
  | .symbol c, .symbol d => do return .symbol (← f.onConstants c d)
  | .tensor a, .symbol d => f.onTensorConstant a d
  | .symbol c, .tensor b => f.onConstantTensor c b
  | .tensor a, .tensor b => do return .tensor (← a.zipWith f.real b)

end BinaryFn

/-- The function on a result. -/
def UnaryFn.onValue {α : Type} [Scalar α] (f : UnaryFn) : Value α → Value α
  | .tensor a => .tensor (a.map f.real)
  | .symbol c => .symbol (f.onConstant c)

end FormulaCalculus
