import FormulaCalculus.Matrix
import FormulaCalculus.Stateful

/-!
Least-squares problems: residuals as a function of a list of parameters. Evaluation may change a
state, and what it has changed stays changed when it fails. Derivatives are central finite
differences unless a problem brings its own.
-/

namespace FormulaCalculus

/-- A problem over a state `σ`. -/
structure Problem (σ α : Type) where
  /-- The residuals at the parameters. -/
  eval : List α → Stateful σ α (List α)
  parameterCount : Nat
  residualCount : Nat
  /-- The Jacobian, for problems that do not leave it to finite differences. -/
  customJacobian : Option (List α → Stateful σ α (Matrix α))

namespace Problem

variable {σ α : Type} [Scalar α]

/-- The relative step of first differences. -/
def defaultStep : α := Scalar.ofDecimal 1 (-6)

/-- The relative step of second differences. -/
def defaultSecondStep : α := Scalar.ofDecimal 1 (-4)

/-- The step for a parameter: relative to its magnitude, but never less than absolute. -/
def stepFor (x eps : α) : α :=
  if Scalar.lt Scalar.one (Scalar.abs x) then Scalar.abs x * eps else eps

omit [Scalar α] in
/-- The residuals at the parameters, as many as the problem declares. -/
def residualColumn (p : Problem σ α) (params : List α) :
    Stateful σ α (Column α p.residualCount) := do
  let residuals ← p.eval params
  if h : residuals.length = p.residualCount then return ⟨residuals, h⟩
  else throw (.dimensionMismatch (.residuals p.residualCount residuals.length))

/-- Moves parameters by the given distances. -/
def shift (params : List α) (moves : List (Nat × α)) : List α :=
  moves.foldl (fun l (k, d) => l.modify k (fun x => x + d)) params

/-- One column of the Jacobian by central differences. -/
def differenceColumn (p : Problem σ α) (params : List α) (eps : α) (j : Nat) (x : α) :
    Stateful σ α (Column α p.residualCount) := do
  let h := stepFor x eps
  let forward ← p.residualColumn (params.modify j (fun x => x + h))
  let backward ← p.residualColumn (params.modify j (fun x => x - h))
  return (forward.zipWith (fun a b => a - b) backward).map fun d => d / (Scalar.two * h)

/-- The Jacobian by central differences: each parameter is moved one step forward and back. -/
def differenceJacobian (p : Problem σ α) (eps : α) (params : List α) :
    Stateful σ α (Matrix α) := do
  let columns ← params.zipIdx.mapM fun (x, j) => p.differenceColumn params eps j x
  return ⟨p.residualCount, columns⟩

/-- A diagonal column of the Hessian by central differences. -/
def diagonalColumn (p : Problem σ α) (center : Column α p.residualCount) (params : List α)
    (i : Nat) (h : α) : Stateful σ α (Column α p.residualCount) := do
  let plus ← p.residualColumn (shift params [(i, h)])
  let minus ← p.residualColumn (shift params [(i, -h)])
  let rise := plus.zipWith (fun a c => a - c * Scalar.two) center
  return (rise.zipWith (fun a b => a + b) minus).map fun d => d / (h * h)

/-- A mixed column of the Hessian by central differences. -/
def mixedColumn (p : Problem σ α) (params : List α) (i j : Nat) (h k : α) :
    Stateful σ α (Column α p.residualCount) := do
  let plusPlus ← p.residualColumn (shift params [(i, h), (j, k)])
  let plusMinus ← p.residualColumn (shift params [(i, h), (j, -k)])
  let minusPlus ← p.residualColumn (shift params [(i, -h), (j, k)])
  let minusMinus ← p.residualColumn (shift params [(i, -h), (j, -k)])
  let first := (plusPlus.zipWith (fun a b => a - b) plusMinus).zipWith (fun a b => a - b) minusPlus
  return (first.zipWith (fun a b => a + b) minusMinus).map fun d => d / (Scalar.four * h * k)

/-- The positions of the lower triangle, by rows, with their parameters. -/
def lowerPairs (params : List α) : List ((Nat × α) × (Nat × α)) :=
  params.zipIdx.flatMap fun (x, i) =>
    (params.zipIdx.take (i + 1)).map fun (y, j) => ((i, x), (j, y))

/-- The second derivatives of every residual by central differences. -/
def differenceHessian (p : Problem σ α) (eps : α) (params : List α) : Stateful σ α (Cube α) := do
  let center ← p.residualColumn params
  let triangle ← (lowerPairs params).mapM fun ((i, x), (j, y)) => do
    let h := stepFor x eps
    let column ← if i = j then p.diagonalColumn center params i h
      else p.mixedColumn params i j h (stepFor y eps)
    return ((i, j), column)
  return Cube.ofTriangle params.length p.residualCount Scalar.zero triangle

/-- The Jacobian: the problem's own, or by finite differences. -/
def jacobian (p : Problem σ α) (params : List α) : Stateful σ α (Matrix α) :=
  match p.customJacobian with
  | some f => f params
  | none => p.differenceJacobian defaultStep params

omit [Scalar α] in
def hasCustomJacobian (p : Problem σ α) : Bool := p.customJacobian.isSome

/-- The sum of the squared residuals; an empty sum is negative zero. -/
def cost (p : Problem σ α) (params : List α) : Stateful σ α α := do
  let residuals ← p.eval params
  return residuals.foldl (fun total r => total + r * r) (-Scalar.zero)

end Problem

end FormulaCalculus
