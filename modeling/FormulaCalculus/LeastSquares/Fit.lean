import FormulaCalculus.LeastSquares.Problem
import FormulaCalculus.Model.Basic

/-!
A model fitted to observations, as a least-squares problem over the store of its variables.
-/

namespace FormulaCalculus

structure Fit (α : Type) where
  model : Model α
  data : List α

namespace Fit

variable {α : Type} [Scalar α]

/-- Pairs a model with observations, as many as the model has values. -/
def create (model : Model α) (data : List α) (s : Store α) : Except (Error α) (Fit α) := do
  let shape ← model.outputShape s
  if shape.volume = data.length then return ⟨model, data⟩
  else throw (.dimensionMismatch (.observations shape.volume data.length))

/-- The problem of a fit: the parameters are written into the store, and stay there. -/
def toProblem (f : Fit α) : Problem (Store α) α where
  eval params := do
    f.model.setParameterValues params
    Stateful.reading (f.model.residuals f.data)
  parameterCount := f.model.parameterCount
  residualCount := f.data.length
  customJacobian := some fun params => do
    f.model.setParameterValues params
    Stateful.reading f.model.jacobian

end Fit

end FormulaCalculus
