import FormulaCalculus.Proofs.Tree.Postorder

/-!
The order of the leaves and inner nodes of a tree, each node behind its children. A tree built from
tokens keeps their order of operands and operators, so operands and operators in another order
build another tree.
-/

namespace FormulaCalculus

variable {α β : Type} {bindings : String → Option β}

/-- Whether a node is a leaf. -/
def NodeLabel.isLeaf : NodeLabel α β → Bool
  | constant _ | tensor _ | variableLeaf _ _ => true
  | unary _ | binary _ => false

theorem Token.Writes.isOperand_eq {t : Token α} {l : NodeLabel α β} (h : t.Writes bindings l) :
    t.isOperand = l.isLeaf := by
  cases h with
  | constant _ | variableName _ => rfl
  | unary harity _ | binary harity _ =>
    cases t <;> first | rfl | nomatch harity

namespace Node

/-- The nodes of a tree, each behind its children: true for a leaf, false for an inner node. -/
def order : Node α β → List Bool
  | constant _ | tensor _ | variableLeaf _ _ => [true]
  | unary _ a => a.order ++ [false]
  | binary _ a b => a.order ++ b.order ++ [false]

theorem order_head (a : Node α β) : ∃ bs, a.order = true :: bs := by
  induction a with
  | constant _ | tensor _ | variableLeaf _ _ => exact ⟨[], rfl⟩
  | unary f a ih =>
    obtain ⟨bs, h⟩ := ih
    exact ⟨bs ++ [false], by rw [order, h, List.cons_append]⟩
  | binary f a b iha ihb =>
    obtain ⟨bs, h⟩ := iha
    exact ⟨bs ++ b.order ++ [false], by rw [order, h, List.cons_append, List.cons_append]⟩

theorem order_eq_map_postorder (a : Node α β) : a.order = a.postorder.map NodeLabel.isLeaf := by
  induction a with
  | constant _ | tensor _ | variableLeaf _ _ => rfl
  | unary f a ih =>
    rw [order, postorder, ih, List.map_append]
    rfl
  | binary f a b iha ihb =>
    rw [order, postorder, iha, ihb, List.map_append, List.map_append]
    rfl

theorem map_isOperand_of_forall₂ {ts : List (Token α)} {ls : List (NodeLabel α β)}
    (h : List.Forall₂ (Token.Writes bindings) ts ls) :
    ts.map Token.isOperand = ls.map NodeLabel.isLeaf := by
  induction h with
  | nil => rfl
  | cons ht _ ih => rw [List.map_cons, List.map_cons, ih, ht.isOperand_eq]

/-- A tree has its nodes in the order of the tokens it is built from. -/
theorem Puts.order_eq {ts : List (Token α)} {a : Node α β}
    (h : Puts .standard bindings ts a) : a.order = ts.map Token.isOperand := by
  rw [order_eq_map_postorder, map_isOperand_of_forall₂ h.isPostorder]

end Node

end FormulaCalculus
