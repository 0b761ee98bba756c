import FormulaCalculus.Tensor.Basic

/-!
Formula trees. A leaf is a constant, a literal tensor, or a variable that carries a name and a
binding: whatever its value is read from. Trees with one binding are evaluated again and again at
the values the bindings have at that time.
-/

namespace FormulaCalculus

/-- A tree over scalars `α` whose variables are bound to values of `β`. -/
inductive Node (α β : Type) where
  | constant (c : Constant α)
  | tensor (a : Tensor α)
  | variableLeaf (name : String) (binding : β)
  | unary (f : UnaryFn) (child : Node α β)
  | binary (f : BinaryFn) (lhs rhs : Node α β)

namespace Node

variable {α β : Type}

/-- Whether two trees are built alike from equal leaves; variables are compared by name. -/
def same [Scalar α] : Node α β → Node α β → Bool
  | constant c, constant d => c == d
  | tensor a, tensor b => a == b
  | variableLeaf m _, variableLeaf n _ => m == n
  | unary f a, unary g b => f == g && a.same b
  | binary f a b, binary g c d => f == g && a.same c && b.same d
  | _, _ => false

instance [Scalar α] : BEq (Node α β) := ⟨same⟩

/-- The names of the variables, from left to right. -/
def names : Node α β → List String
  | constant _ | tensor _ => []
  | variableLeaf name _ => [name]
  | unary _ a => a.names
  | binary _ a b => a.names ++ b.names

/-- Inserts a name into an increasing list of names that it may already be in. -/
def insertName (name : String) : List String → List String
  | [] => [name]
  | n :: ns =>
    if name < n then name :: n :: ns
    else if name = n then n :: ns
    else n :: insertName name ns

/-- The names of the variables, each once and in increasing order. -/
def variableNames (a : Node α β) : List String := a.names.foldr insertName []

/-- Whether no variable occurs. -/
def isConstant : Node α β → Bool
  | constant _ | tensor _ => true
  | variableLeaf _ _ => false
  | unary _ a => a.isConstant
  | binary _ a b => a.isConstant && b.isConstant

/-- The number of nodes. -/
def size : Node α β → Nat
  | constant _ | tensor _ | variableLeaf _ _ => 1
  | unary _ a => 1 + a.size
  | binary _ a b => 1 + a.size + b.size

end Node

end FormulaCalculus
