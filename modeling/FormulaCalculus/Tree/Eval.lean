import FormulaCalculus.Algebra.Value
import FormulaCalculus.Tree.Basic

/-!
Evaluation of trees. Variables are read through their bindings; constant operands are combined
exactly, tensors entry by entry.
-/

namespace FormulaCalculus

/-- The value of a tree where each binding reads as the given tensor. -/
def Node.eval {α β : Type} [Scalar α] (read : β → Tensor α) :
    Node α β → Except (AlgebraError α) (Value α)
  | constant c => .ok (.symbol c)
  | tensor a => .ok (.tensor a)
  | variableLeaf _ b => .ok (.tensor (read b))
  | unary f a => do return f.onValue (← a.eval read)
  | binary f a b => do
    let x ← a.eval read
    let y ← b.eval read
    f.onValues x y

end FormulaCalculus
