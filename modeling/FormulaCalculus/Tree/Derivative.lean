import FormulaCalculus.Tree.Eval

/-!
Differentiation. The chain rules are written once, over any kind of terms that can be combined by
the functions of a formula, and used twice: on values, where they give the value of a partial
derivative, and on trees, where they give its tree. A part whose derivative is exactly zero is
never evaluated.
-/

namespace FormulaCalculus

/-- What the chain rules need of the terms they combine. -/
class Terms (α : outParam Type) (τ : Type) where
  constant : Constant α → τ
  /-- Whether the term is the symbol for zero. -/
  isZero : τ → Bool
  unary : UnaryFn → τ → τ
  binary : BinaryFn → τ → τ → Except (AlgebraError α) τ

/-- Values are combined by evaluating. -/
instance {α : Type} [Scalar α] : Terms α (Value α) where
  constant := .symbol
  isZero := Value.isZero
  unary f x := f.onValue x
  binary := BinaryFn.onValues

namespace Node

variable {α β : Type} [Scalar α]

omit [Scalar α] in
/-- Whether the tree is a leaf with the symbol for zero. -/
def isZeroLeaf : Node α β → Bool
  | constant c => c.isZero
  | _ => false

/-- A function applied to a tree: constants are folded, and two minuses cancel. -/
def smartUnary (f : UnaryFn) (a : Node α β) : Node α β :=
  match f, a with
  | f, constant c => constant (f.onConstant c)
  | .neg, unary .neg a => a
  | f, a => unary f a

/-- A function applied to two trees: constants are folded, and an operand that is the symbol for
zero, one or minus one is simplified away where the function allows it. -/
def smartBinary (f : BinaryFn) (a b : Node α β) : Except (AlgebraError α) (Node α β) :=
  match f, a, b with
  | f, constant c, constant d => do return constant (← f.onConstants c d)
  | .add, constant (.zero _), x | .add, x, constant (.zero _) | .sub, x, constant (.zero _) => .ok x
  | .sub, constant (.zero _), x => .ok (smartUnary .neg x)
  | .mul, constant (.zero s), _ | .mul, _, constant (.zero s) => .ok (constant (.zero s))
  | .mul, constant (.unity _), x | .mul, x, constant (.unity _) | .div, x, constant (.unity _) =>
    .ok x
  | .mul, constant (.negUnity _), x | .mul, x, constant (.negUnity _)
  | .div, x, constant (.negUnity _) => .ok (smartUnary .neg x)
  | .pow, x, constant (.unity _) => .ok x
  | .pow, _, constant (.zero s) => .ok (constant (.unity s))
  | f, a, b => .ok (binary f a b)

/-- Trees are combined by building the simplified tree. -/
instance : Terms α (Node α β) where
  constant := constant
  isZero := isZeroLeaf
  unary := smartUnary
  binary := smartBinary

end Node

namespace Terms

variable {α τ : Type} [Scalar α] [Terms α τ]

def one : τ := constant (.unity Shape.scalar)

def real (x : α) : τ := constant (.ofReal x)

/-- The derivative of a function at the term `u` whose derivative is `du`. -/
def unaryRule (f : UnaryFn) (u du : τ) : Except (AlgebraError α) τ :=
  match f with
  | .neg => .ok (unary .neg du)
  | .abs => do binary .mul (← binary .div u (unary .abs u)) du
  | .sqrt => do binary .div (← binary .mul (real Scalar.half) du) (unary .sqrt u)
  | .square => do binary .mul (← binary .mul (real Scalar.two) u) du
  | .exp => binary .mul (unary .exp u) du
  | .log => binary .div du u
  | .log10 => do binary .div du (← binary .mul u (real Scalar.ln10))
  | .sin => binary .mul (unary .cos u) du
  | .cos => binary .mul (unary .neg (unary .sin u)) du
  | .tan => binary .div du (unary .square (unary .cos u))
  | .asin => do binary .div du (unary .sqrt (← binary .sub one (unary .square u)))
  | .acos => do binary .div (unary .neg du) (unary .sqrt (← binary .sub one (unary .square u)))
  | .atan => do binary .div du (← binary .add one (unary .square u))
  | .sinh => binary .mul (unary .cosh u) du
  | .cosh => binary .mul (unary .sinh u) du
  | .tanh => binary .div du (unary .square (unary .cosh u))
  | .asinh => do binary .div du (unary .sqrt (← binary .add (unary .square u) one))
  | .acosh => do binary .div du (unary .sqrt (← binary .sub (unary .square u) one))
  | .atanh => do binary .div du (← binary .sub one (unary .square u))

/-- The derivative of a power whose exponent is constant. -/
def powRule (l r dl : τ) : Except (AlgebraError α) τ := do
  let reduced ← binary .sub r one
  binary .mul (← binary .mul r (← binary .pow l reduced)) dl

/-- The derivative of a power whose exponent varies, by logarithmic differentiation. -/
def expPowRule (l r dl dr : τ) : Except (AlgebraError α) τ := do
  let logTerm ← binary .mul dr (unary .log l)
  let baseTerm ← binary .div (← binary .mul r dl) l
  binary .mul (← binary .pow l r) (← binary .add logTerm baseTerm)

/-- The derivative of a function at the terms `l` and `r` whose derivatives are `dl` and `dr`. -/
def binaryRule (f : BinaryFn) (l r dl dr : τ) : Except (AlgebraError α) τ :=
  match f with
  | .add => binary .add dl dr
  | .sub => binary .sub dl dr
  | .mul => do binary .add (← binary .mul dl r) (← binary .mul l dr)
  | .div => do
    let numerator ← binary .add (← binary .mul dl r) (← binary .mul (unary .neg l) dr)
    binary .div numerator (unary .square r)
  | .pow => if isZero dr then powRule l r dl else expPowRule l r dl dr
  | .atan2 => do
    let numerator ← binary .add (← binary .mul r dl) (← binary .mul (unary .neg l) dr)
    let denominator ← binary .add (unary .square r) (unary .square l)
    binary .div numerator denominator

end Terms

namespace Node

variable {α β : Type} [Scalar α]

/-- The value of the partial derivative with respect to a variable. Leaves differentiate to the
symbol for zero, or for one, of their own shape. -/
def diff (read : β → Tensor α) (wrt : String) : Node α β → Except (AlgebraError α) (Value α)
  | constant c => .ok (.symbol (.zero c.shape))
  | tensor a => .ok (.symbol (.zero a.shape))
  | variableLeaf name b =>
    let shape := (read b).shape
    .ok (.symbol (if name = wrt then .unity shape else .zero shape))
  | unary f a => do
    let du ← a.diff read wrt
    if du.isZero then return du
    else Terms.unaryRule f (← a.eval read) du
  | binary f a b => do
    let dl ← a.diff read wrt
    let dr ← b.diff read wrt
    if dl.isZero && dr.isZero then BinaryFn.add.onValues dl dr
    else
      let l ← a.eval read
      let r ← b.eval read
      Terms.binaryRule f l r dl dr

/-- The tree of the partial derivative with respect to a variable. A variable differentiates to a
symbol of scalar shape. -/
def derivative (wrt : String) : Node α β → Except (AlgebraError α) (Node α β)
  | constant c => .ok (constant (.zero c.shape))
  | tensor a => .ok (constant (.zero a.shape))
  | variableLeaf name _ =>
    .ok (constant (if name = wrt then .unity Shape.scalar else .zero Shape.scalar))
  | unary f a => do
    let du ← a.derivative wrt
    if du.isZeroLeaf then return du
    else Terms.unaryRule f a du
  | binary f a b => do
    let dl ← a.derivative wrt
    let dr ← b.derivative wrt
    if dl.isZeroLeaf && dr.isZeroLeaf then smartBinary .add dl dr
    else Terms.binaryRule f a b dl dr

end Node

end FormulaCalculus
