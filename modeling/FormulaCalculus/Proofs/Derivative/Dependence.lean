import FormulaCalculus.Proofs.Derivative.Absent
import FormulaCalculus.Proofs.Tree.Bindings
import FormulaCalculus.Scalar.Double

/-!
What derivatives depend on. However often a tree is derived, the derived tree has no variable that
the tree does not have, and each one is bound as it was there. So nothing outside the tree has a say
in its values and in those of its derivatives, nor in where they fail.
-/

namespace FormulaCalculus

namespace Node

variable {α β : Type} {a n : Node α β}

theorem names_eq_map_bindings (a : Node α β) : a.names = a.bindings.map Prod.fst := by
  induction a with
  | constant _ | tensor _ | variableLeaf _ _ => rfl
  | unary f a ih => exact ih
  | binary f a b iha ihb => rw [names, bindings, iha, ihb, List.map_append]

theorem variableNames_subset (h : n.bindings ⊆ a.bindings) :
    n.variableNames ⊆ a.variableNames := by
  intro name hname
  rw [mem_variableNames, names_eq_map_bindings] at hname ⊢
  exact List.map_subset Prod.fst h hname

variable [Scalar α]

theorem bindings_iteratedDerivative_subset {wrts : List String}
    (h : a.iteratedDerivative wrts = .ok n) : n.bindings ⊆ a.bindings :=
  iteratedDerivative_induction (P := fun d => d.bindings ⊆ a.bindings)
    (fun _ _ _ hd hn => List.Subset.trans (bindings_derivative_subset hn) hd)
    (List.Subset.refl _) h

/-- Derivatives see only the variables of the tree. Two assignments of values that agree on these
give the tree and all its iterated derivatives the same values and the same errors, and their
partial derivatives too. -/
theorem derivatives_see_bindings (a : Node α β) :
    (∀ wrt n, a.derivative wrt = .ok n →
      n.variableNames ⊆ a.variableNames ∧ n.bindings ⊆ a.bindings) ∧
    ∀ read read' : β → Tensor α, (∀ p ∈ a.bindings, read p.2 = read' p.2) →
      ∀ wrts d, a.iteratedDerivative wrts = .ok d →
        d.eval read = d.eval read' ∧ ∀ wrt, d.diff read wrt = d.diff read' wrt := by
  constructor
  · intro wrt n hn
    have hsubset := bindings_derivative_subset hn
    exact ⟨variableNames_subset hsubset, hsubset⟩
  · intro read read' hagree wrts d hd
    have hseen : ∀ p ∈ d.bindings, read p.2 = read' p.2 :=
      fun p hp => hagree p (bindings_iteratedDerivative_subset hd hp)
    exact ⟨eval_congr hseen, fun wrt => diff_congr hseen⟩

/-- The mixed second derivative of `x*sin(y)`, where a third variable has two entries or one. -/
theorem derivatives_see_bindings_product :
    let x : Node Double String := .variableLeaf "x" "x"
    let y : Node Double String := .variableLeaf "y" "y"
    let a : Node Double String := .binary .mul x (.unary .sin y)
    let read (name : String) : Tensor Double :=
      .replicate (if name = "z" then [2] else Shape.scalar) Scalar.half
    let other (_ : String) : Tensor Double := .singleton Scalar.half
    (read "z").shape ≠ (other "z").shape ∧ ∃ b d, a.derivative "x" = .ok b ∧
      b.derivative "y" = .ok d ∧ b.variableNames ⊆ a.variableNames ∧
        d.eval read = d.eval other ∧ d.diff read "y" = d.diff other "y" := by
  intro x y a read other
  have hshape : (read "z").shape ≠ (other "z").shape := by decide
  let b : Node Double String := .unary .sin y
  let d : Node Double String := .unary .cos y
  have hb : a.derivative "x" = .ok b := rfl
  have hd : b.derivative "y" = .ok d := rfl
  have hagree : ∀ p ∈ a.bindings, read p.2 = other p.2 :=
    List.forall_mem_cons.mpr ⟨rfl, List.forall_mem_singleton.mpr rfl⟩
  obtain ⟨hnames, hvalues⟩ := derivatives_see_bindings a
  obtain ⟨heval, hdiff⟩ := hvalues read other hagree ["x", "y"] d rfl
  exact ⟨hshape, b, d, hb, hd, (hnames "x" b hb).1, heval, hdiff "y"⟩

end Node

end FormulaCalculus
