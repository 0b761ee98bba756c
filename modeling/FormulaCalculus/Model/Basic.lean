import FormulaCalculus.Expression
import FormulaCalculus.Matrix
import FormulaCalculus.Model.Spec
import FormulaCalculus.Model.Store

/-!
Models: a formula compiled once, together with its first and second partial derivatives, and
evaluated at the values of a store. Derivatives are symbolic unless the description supplies its
own.
-/

namespace FormulaCalculus

/-- A formula whose variables are read from a store. -/
abbrev StoredExpression (α : Type) := Expression α String

/-- A quantity that a model evaluates: a formula, or its slope along a variable. -/
inductive Quantity (α : Type) where
  | value (e : StoredExpression α)
  | slope (e : StoredExpression α) (wrt : String)

/-- The value of a quantity at the values of a store. -/
def Quantity.eval {α : Type} [Scalar α] (s : Store α) : Quantity α → Except (Error α) (Value α)
  | value e => e.eval s.read
  | slope e wrt => e.diff s.read wrt

structure Model (α : Type) where
  spec : ModelSpec
  value : StoredExpression α
  /-- The formulas of the first derivatives. -/
  derivatives : List (StoredExpression α)
  /-- What the columns of the Jacobian are evaluated from. -/
  slopes : List (Quantity α)
  /-- What the columns of the Hessian are evaluated from: the pairs of parameters by rows, each
  row from its diagonal on. -/
  curvatures : List (Quantity α)

/-- The position of a pair of `n` parameters among those whose first is not behind its second. -/
def triangleIndex (i j n : Nat) : Nat :=
  let low := min i j
  let high := max i j
  low * n - low * (low + 1) / 2 + high

namespace Model

variable {α : Type} [Scalar α]

/-- The lexicon in which the formulas of a model are written. -/
def lexicon (spec : ModelSpec) : Lexicon := Lexicon.standard.withVariables spec.variableNames

/-- Each variable of a model is read from the store under its own name. -/
def binding (spec : ModelSpec) (name : String) : Option String :=
  if spec.variableNames.contains name then some name else none

def compileIn (spec : ModelSpec) (source : String) : Except (Error α) (StoredExpression α) :=
  Expression.compile (lexicon spec) (binding spec) source

omit [Scalar α] in
/-- The slopes of each derivative along its own parameter and those behind it. -/
def slopesAlongRest : List (StoredExpression α) → List String → List (Quantity α)
  | e :: es, name :: names => (name :: names).map (.slope e) ++ slopesAlongRest es names
  | _, _ => []

/-- Compiles the first derivatives of a model. -/
def compileDerivatives [DecimalText α] (spec : ModelSpec) (value : StoredExpression α) :
    Except (Error α) (List (StoredExpression α) × List (Quantity α)) :=
  match spec.derivatives with
  | some sources => do
    let compiled ← sources.mapM (compileIn spec)
    return (compiled, compiled.map .value)
  | none => do
    let compiled ← spec.parameters.mapM fun name => value.derivative name
    return (compiled, spec.parameters.map (.slope value))

/-- Compiles the second derivatives of a model whose first derivatives are known. -/
def compileCurvatures (spec : ModelSpec) (derivatives : List (StoredExpression α)) :
    Except (Error α) (List (Quantity α)) :=
  match spec.secondDerivatives with
  | some sources => do return (← sources.mapM (compileIn spec)).map .value
  | none => .ok (slopesAlongRest derivatives spec.parameters)

/-- Compiles a model. -/
def compile [DecimalText α] (spec : ModelSpec) : Except (Error α) (Model α) := do
  spec.validate
  let value ← compileIn spec spec.expression
  let (derivatives, slopes) ← compileDerivatives spec value
  let curvatures ← compileCurvatures spec derivatives
  return { spec, value, derivatives, slopes, curvatures }

/-- The store in which every variable of a model is zero. -/
def initialStore (spec : ModelSpec) : Store α :=
  spec.variableNames.foldl (fun s name => s.set name (Tensor.singleton Scalar.zero)) Store.empty

omit [Scalar α] in
def parameterCount (m : Model α) : Nat := m.spec.parameters.length

omit [Scalar α] in
/-- Writes a value to one of the given names; for any other name there is a refusal. -/
def setAmong (names : List String) (refusal : String → InvalidInput) (name : String)
    (value : Tensor α) : Stateful (Store α) α Unit := do
  Stateful.require (name ∈ names) (.invalidInput (refusal name))
  Store.write name value

omit [Scalar α] in
/-- Writes a parameter. -/
def setParameter (m : Model α) : String → Tensor α → Stateful (Store α) α Unit :=
  setAmong m.spec.parameters .notAParameter

omit [Scalar α] in
/-- Writes a constant. -/
def setConstant (m : Model α) : String → Tensor α → Stateful (Store α) α Unit :=
  setAmong m.spec.constants .notAConstant

omit [Scalar α] in
/-- Writes one number to each parameter, one after the other in their order. -/
def setParameterValues (m : Model α) (values : List α) : Stateful (Store α) α Unit := do
  Stateful.require (values.length = m.parameterCount)
    (.dimensionMismatch (.parameterValues m.parameterCount values.length))
  (m.spec.parameters.zip values).forM fun (name, x) => Store.write name (Tensor.singleton x)

/-- The shape of the model's value. -/
def outputShape (m : Model α) (s : Store α) : Except (Error α) Shape := do
  return (← m.value.eval s.read).shape

/-- The value of a quantity as a column with one entry per place of a shape. -/
def columnOf (s : Store α) (shape : Shape) (q : Quantity α) :
    Except (Error α) (Column α shape.volume) := do
  let a ← (← q.eval s).toTensor.mapError .algebra
  if h : a.shape.fits shape = true then return ⟨a.entriesIn shape, Tensor.length_entriesIn h⟩
  else throw (.algebra (.broadcast a.shape shape))

/-- The model's values, in row-major order. -/
def values (m : Model α) (s : Store α) : Except (Error α) (List α) := do
  return (← m.value.evalTensor s.read).data

/-- The model's values less the observed ones. -/
def residuals (m : Model α) (data : List α) (s : Store α) : Except (Error α) (List α) := do
  let values ← m.values s
  if values.length = data.length then return List.zipWith (fun x y => x - y) values data
  else throw (.dimensionMismatch (.observedValues values.length data.length))

omit [Scalar α] in
def checkIndex (m : Model α) (i : Nat) : Except (Error α) Unit :=
  if i < m.parameterCount then .ok ()
  else .error (.invalidInput (.parameterIndex i m.parameterCount))

omit [Scalar α] in
/-- The quantity at a position; the error cannot arise at positions of parameters. -/
def quantityAt (m : Model α) (l : List (Quantity α)) (i : Nat) : Except (Error α) (Quantity α) :=
  match l[i]? with
  | some q => .ok q
  | none => .error (.invalidInput (.parameterIndex i m.parameterCount))

/-- The partial derivative with respect to a parameter, stretched to the shape of the values. -/
def derivative (m : Model α) (i : Nat) (s : Store α) : Except (Error α) (List α) := do
  m.checkIndex i
  let shape ← m.outputShape s
  let q ← m.quantityAt m.slopes i
  return (← columnOf s shape q).entries

/-- The second partial derivative with respect to two parameters. -/
def secondDerivative (m : Model α) (i j : Nat) (s : Store α) : Except (Error α) (List α) := do
  m.checkIndex i
  m.checkIndex j
  let shape ← m.outputShape s
  let q ← m.quantityAt m.curvatures (triangleIndex i j m.parameterCount)
  return (← columnOf s shape q).entries

/-- The Jacobian: one row per value, one column per parameter. -/
def jacobian (m : Model α) (s : Store α) : Except (Error α) (Matrix α) := do
  let shape ← m.outputShape s
  return ⟨shape.volume, ← m.slopes.mapM (columnOf s shape)⟩

/-- The Jacobian with its columns evaluated independently of each other and then put together. -/
def jacobianByColumns (m : Model α) (s : Store α) : Except (Error α) (Matrix α) := do
  let shape ← m.outputShape s
  let columns ← mapIndices m.slopes.length fun j => do
    return (← columnOf s shape (← m.quantityAt m.slopes j)).entries
  Matrix.ofColumns shape.volume columns

/-- The pairs of positions below `n` whose first is not behind its second, by rows. -/
def upperPairs (n : Nat) : List (Nat × Nat) :=
  (List.range n).flatMap fun i => (List.range (n - i)).map fun k => (i, i + k)

/-- The Hessian: one square of second derivatives per value. -/
def hessian (m : Model α) (s : Store α) : Except (Error α) (Cube α) := do
  let shape ← m.outputShape s
  let n := m.parameterCount
  let triangle ← (upperPairs n).mapM fun (i, j) => do
    let q ← m.quantityAt m.curvatures (triangleIndex i j n)
    return ((i, j), ← columnOf s shape q)
  return Cube.ofTriangle n shape.volume Scalar.zero triangle

/-- Values and Jacobian. -/
def evalDiff (m : Model α) (s : Store α) : Except (Error α) (List α × Matrix α) := do
  return (← m.values s, ← m.jacobian s)

/-- Values, Jacobian and Hessian. -/
def evalDiffHess (m : Model α) (s : Store α) : Except (Error α) (List α × Matrix α × Cube α) := do
  return (← m.values s, ← m.jacobian s, ← m.hessian s)

end Model

end FormulaCalculus
