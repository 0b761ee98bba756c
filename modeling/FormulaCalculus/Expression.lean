import FormulaCalculus.Error
import FormulaCalculus.Tree.Derivative
import FormulaCalculus.Tree.Printer

/-!
Compiled formulas: a tree together with the text it comes from. Compilation cuts the text into
tokens, brings them into postfix order and builds the tree.
-/

namespace FormulaCalculus

/-- A formula and its tree. -/
structure Expression (α β : Type) where
  source : String
  root : Node α β

namespace Expression

variable {α β : Type} [Scalar α]

instance : BEq (Expression α β) where
  beq a b := a.source == b.source && a.root == b.root

/-- Compiles a formula with the given constructors of nodes. -/
def compileWith (m : Constructors α β) (l : Lexicon) (bindings : String → Option β)
    (source : String) : Except (Error α) (Expression α β) := do
  let tokens ← (l.lex source).mapError .lex
  let postfixTokens ← (toPostfix tokens).mapError .parse
  let root ← (Node.ofPostfix m bindings postfixTokens).mapError fun
    | .build e => .build e
    | .binding e => .binding e
  return ⟨source, root⟩

/-- Compiles a formula with the standard constructors of nodes. -/
def compile (l : Lexicon) (bindings : String → Option β) (source : String) :
    Except (Error α) (Expression α β) :=
  compileWith .standard l bindings source

/-- A tree as an expression; its source is its written form. -/
def ofNode [DecimalText α] (root : Node α β) : Expression α β := ⟨root.render, root⟩

def eval (read : β → Tensor α) (e : Expression α β) : Except (Error α) (Value α) :=
  (e.root.eval read).mapError .algebra

/-- The value as a real tensor. -/
def evalTensor (read : β → Tensor α) (e : Expression α β) : Except (Error α) (Tensor α) := do
  (← e.eval read).toTensor.mapError .algebra

/-- The value of the partial derivative with respect to a variable. -/
def diff (read : β → Tensor α) (wrt : String) (e : Expression α β) : Except (Error α) (Value α) :=
  (e.root.diff read wrt).mapError .algebra

/-- The partial derivative with respect to a variable, as an expression. -/
def derivative [DecimalText α] (wrt : String) (e : Expression α β) :
    Except (Error α) (Expression α β) := do
  return ofNode (← (e.root.derivative wrt).mapError .algebra)

end Expression

end FormulaCalculus
