import FormulaCalculus.Proofs.Model.Assembly
import FormulaCalculus.Proofs.Tree.Bindings

/-!
What is read off a model. Every answer is calculated from the formulas that the model was compiled
to, so stores with the same values of the variables of these formulas give the same answers. The
variables are declared, and each reads the store under its own name.
-/

namespace FormulaCalculus

/-- What can be read off a model. -/
inductive Reading (α : Type) where
  | outputShape
  | values
  | residuals (data : List α)
  | derivative (i : Nat)
  | secondDerivative (i j : Nat)
  | jacobian
  | jacobianByColumns
  | hessian
  | evalDiff
  | evalDiffHess

/-- What is answered: numbers in one of several forms, or only that something was done. -/
inductive Answer (α : Type) where
  | done
  | shape (s : Shape)
  | numbers (l : List α)
  | matrix (a : Matrix α)
  | cube (c : Cube α)
  | several (l : List (Answer α))

variable {α : Type}

/-- The formula that a quantity is calculated from. -/
def Quantity.formula : Quantity α → StoredExpression α
  | value e => e
  | slope e _ => e

theorem mapM_congr {ε β γ : Type} {f g : β → Except ε γ} {l : List β} (h : ∀ b ∈ l, f b = g b) :
    l.mapM f = l.mapM g := by
  induction l with
  | nil => rfl
  | cons b l ih =>
    obtain ⟨hb, hl⟩ := List.forall_mem_cons.mp h
    rw [List.mapM_cons, List.mapM_cons, hb, ih hl]

/-- Each result of a list of calculations comes from one of them. -/
theorem exists_of_mem_mapM {ε β γ : Type} {f : β → Except ε γ} {l : List β} {r : List γ}
    (h : l.mapM f = .ok r) {c : γ} (hc : c ∈ r) : ∃ b, f b = .ok c := by
  have hall := mapM_eq_ok_iff.mp h
  obtain ⟨k, hk, rfl⟩ := List.getElem_of_mem hc
  exact ⟨_, hall.get (hall.length_eq ▸ hk) hk⟩

namespace Model

/-- The formulas that a model calculates with. -/
def formulas (m : Model α) : List (StoredExpression α) :=
  m.value :: (m.derivatives ++ (m.slopes ++ m.curvatures).map Quantity.formula)

variable [Scalar α]

/-- The answer of a model at the values of a store. -/
def answer (m : Model α) (s : Store α) : Reading α → Except (Error α) (Answer α)
  | .outputShape => (m.outputShape s).map .shape
  | .values => (m.values s).map .numbers
  | .residuals data => (m.residuals data s).map .numbers
  | .derivative i => (m.derivative i s).map .numbers
  | .secondDerivative i j => (m.secondDerivative i j s).map .numbers
  | .jacobian => (m.jacobian s).map .matrix
  | .jacobianByColumns => (m.jacobianByColumns s).map .matrix
  | .hessian => (m.hessian s).map .cube
  | .evalDiff => (m.evalDiff s).map fun (l, a) => .several [.numbers l, .matrix a]
  | .evalDiffHess =>
    (m.evalDiffHess s).map fun (l, a, c) => .several [.numbers l, .matrix a, .cube c]

/-- Whether two stores have the same values of all variables of a model's formulas. -/
def SameReads (m : Model α) (s s' : Store α) : Prop :=
  ∀ e ∈ m.formulas, ∀ p ∈ e.root.bindings, s.read p.2 = s'.read p.2

variable {m : Model α} {s s' : Store α}

theorem sameReads_of_get? (h : ∀ n, s.get? n = s'.get? n) : m.SameReads s s' := by
  intro e he p hp
  rw [Store.read, Store.read, h]

/-! ### Answers -/

theorem quantity_eval_congr {q : Quantity α}
    (h : ∀ p ∈ q.formula.root.bindings, s.read p.2 = s'.read p.2) : q.eval s = q.eval s' := by
  cases q with
  | value e =>
    have hvalue : e.root.eval s.read = e.root.eval s'.read := Node.eval_congr h
    simp only [Quantity.eval, Expression.eval, hvalue]
  | slope e wrt =>
    have hslope : e.root.diff s.read wrt = e.root.diff s'.read wrt := Node.diff_congr h
    simp only [Quantity.eval, Expression.diff, hslope]

namespace SameReads

theorem value (h : m.SameReads s s') : m.value.eval s.read = m.value.eval s'.read := by
  have hvalue := h m.value List.mem_cons_self
  exact quantity_eval_congr (q := .value m.value) hvalue

theorem columnOf {q : Quantity α} (h : m.SameReads s s') (hq : q ∈ m.slopes ++ m.curvatures)
    (shape : Shape) : columnOf s shape q = columnOf s' shape q := by
  have hmem : q.formula ∈ m.formulas :=
    List.mem_cons_of_mem _ (List.mem_append_right _ (List.mem_map_of_mem hq))
  unfold Model.columnOf
  rw [quantity_eval_congr (h q.formula hmem)]

theorem outputShape (h : m.SameReads s s') : m.outputShape s = m.outputShape s' := by
  unfold Model.outputShape
  rw [h.value]

theorem values (h : m.SameReads s s') : m.values s = m.values s' := by
  unfold Model.values Expression.evalTensor
  rw [h.value]

theorem residuals (h : m.SameReads s s') (data : List α) :
    m.residuals data s = m.residuals data s' := by
  unfold Model.residuals
  rw [h.values]

/-- Only quantities of the model are found at its positions. -/
theorem quantityAt {γ : Type} (h : m.SameReads s s') {l : List (Quantity α)}
    (hl : l ⊆ m.slopes ++ m.curvatures) (shape : Shape)
    (f : Column α shape.volume → Except (Error α) γ) (i : Nat) :
    (m.quantityAt l i >>= fun q => Model.columnOf s shape q >>= f) =
      m.quantityAt l i >>= fun q => Model.columnOf s' shape q >>= f := by
  cases hq : m.quantityAt l i with
  | error e => rfl
  | ok q =>
    have hmem := hl (List.mem_of_getElem? (quantityAt_eq_ok_iff.mp hq))
    have hcolumn := h.columnOf hmem shape
    change (Model.columnOf s shape q >>= f) = (Model.columnOf s' shape q >>= f)
    rw [hcolumn]

theorem derivative (h : m.SameReads s s') (i : Nat) : m.derivative i s = m.derivative i s' := by
  unfold Model.derivative
  rw [h.outputShape]
  simp only [h.quantityAt (List.subset_append_left _ _)]

theorem secondDerivative (h : m.SameReads s s') (i j : Nat) :
    m.secondDerivative i j s = m.secondDerivative i j s' := by
  unfold Model.secondDerivative
  rw [h.outputShape]
  simp only [h.quantityAt (List.subset_append_right _ _)]

theorem jacobian (h : m.SameReads s s') : m.jacobian s = m.jacobian s' := by
  have hcolumns (shape : Shape) :
      m.slopes.mapM (Model.columnOf s shape) = m.slopes.mapM (Model.columnOf s' shape) :=
    mapM_congr fun q hq => h.columnOf (List.mem_append_left _ hq) shape
  unfold Model.jacobian
  rw [h.outputShape]
  simp only [hcolumns]

theorem hessian (h : m.SameReads s s') : m.hessian s = m.hessian s' := by
  unfold Model.hessian
  rw [h.outputShape]
  simp only [h.quantityAt (List.subset_append_right _ _)]

theorem evalDiff (h : m.SameReads s s') : m.evalDiff s = m.evalDiff s' := by
  unfold Model.evalDiff
  rw [h.values, h.jacobian]

theorem evalDiffHess (h : m.SameReads s s') : m.evalDiffHess s = m.evalDiffHess s' := by
  unfold Model.evalDiffHess
  rw [h.values, h.jacobian, h.hessian]

/-- Stores with the same values of a model's variables give the same answers. -/
theorem answer (h : m.SameReads s s') (r : Reading α) : m.answer s r = m.answer s' r := by
  cases r with
  | outputShape => rw [Model.answer, Model.answer, h.outputShape]
  | values => rw [Model.answer, Model.answer, h.values]
  | residuals data => rw [Model.answer, Model.answer, h.residuals]
  | derivative i => rw [Model.answer, Model.answer, h.derivative]
  | secondDerivative i j => rw [Model.answer, Model.answer, h.secondDerivative]
  | jacobian => rw [Model.answer, Model.answer, h.jacobian]
  | jacobianByColumns =>
    rw [Model.answer, Model.answer, jacobianByColumns_eq, jacobianByColumns_eq, h.jacobian]
  | hessian => rw [Model.answer, Model.answer, h.hessian]
  | evalDiff => rw [Model.answer, Model.answer, h.evalDiff]
  | evalDiffHess => rw [Model.answer, Model.answer, h.evalDiffHess]

end SameReads

/-! ### Variables -/

variable [DecimalText α] {spec : ModelSpec} {e value : StoredExpression α}
  {es : List (StoredExpression α)} {qs : List (Quantity α)}

/-- Whether each variable of a formula is declared and reads the store under its own name. -/
def ReadsDeclared (spec : ModelSpec) (e : StoredExpression α) : Prop :=
  ∀ p ∈ e.root.bindings, p.2 = p.1 ∧ p.1 ∈ spec.variableNames

omit [DecimalText α] in
theorem readsDeclared_of_compileIn {source : String} (h : compileIn spec source = .ok e) :
    ReadsDeclared spec e := by
  intro p hp
  have hbinding := Node.bindings_of_compile h p hp
  unfold binding at hbinding
  split_ifs at hbinding with hdeclared
  exact ⟨(Option.some.inj hbinding).symm, List.contains_iff_mem.mp hdeclared⟩

omit [DecimalText α] in
theorem forall_readsDeclared {sources : List String} (h : sources.mapM (compileIn spec) = .ok es) :
    ∀ e ∈ es, ReadsDeclared spec e := by
  intro e he
  obtain ⟨source, hsource⟩ := exists_of_mem_mapM h he
  exact readsDeclared_of_compileIn hsource

theorem ReadsDeclared.derivative {name : String} (he : ReadsDeclared spec value)
    (h : value.derivative name = .ok e) : ReadsDeclared spec e := by
  obtain ⟨n, hn, h⟩ := exists_of_bind_eq_ok h
  obtain rfl := Except.ok.inj h
  have hsubset := Node.bindings_derivative_subset (mapError_eq_ok_iff.mp hn)
  exact fun p hp => he p (hsubset hp)

omit [Scalar α] [DecimalText α] in
theorem formula_mem_of_slopesAlongRest {names : List String} {q : Quantity α}
    (hq : q ∈ slopesAlongRest es names) : q.formula ∈ es := by
  induction es generalizing names with
  | nil => nomatch hq
  | cons e es ih =>
    cases names with
    | nil => nomatch hq
    | cons name names =>
      rcases List.mem_append.mp hq with hq | hq
      · obtain ⟨wrt, -, rfl⟩ := List.mem_map.mp hq
        exact List.mem_cons_self
      · exact List.mem_cons_of_mem _ (ih hq)

theorem readsDeclared_of_compileDerivatives (hvalue : ReadsDeclared spec value)
    (h : compileDerivatives spec value = .ok (es, qs)) :
    (∀ e ∈ es, ReadsDeclared spec e) ∧ ∀ q ∈ qs, ReadsDeclared spec q.formula := by
  unfold compileDerivatives at h
  split at h
  · obtain ⟨compiled, hcompiled, h⟩ := exists_of_bind_eq_ok h
    obtain ⟨rfl, rfl⟩ := Prod.mk.inj (Except.ok.inj h)
    have hes := forall_readsDeclared hcompiled
    exact ⟨hes, List.forall_mem_map.mpr hes⟩
  · obtain ⟨compiled, hcompiled, h⟩ := exists_of_bind_eq_ok h
    obtain ⟨rfl, rfl⟩ := Prod.mk.inj (Except.ok.inj h)
    refine ⟨?_, List.forall_mem_map.mpr fun _ _ => hvalue⟩
    intro e he
    obtain ⟨name, hname⟩ := exists_of_mem_mapM hcompiled he
    exact hvalue.derivative hname

omit [DecimalText α] in
theorem readsDeclared_of_compileCurvatures (hes : ∀ e ∈ es, ReadsDeclared spec e)
    (h : compileCurvatures spec es = .ok qs) : ∀ q ∈ qs, ReadsDeclared spec q.formula := by
  unfold compileCurvatures at h
  split at h
  · obtain ⟨compiled, hcompiled, h⟩ := exists_of_bind_eq_ok h
    obtain rfl := Except.ok.inj h
    exact List.forall_mem_map.mpr (forall_readsDeclared hcompiled)
  · obtain rfl := Except.ok.inj h
    exact fun q hq => hes _ (formula_mem_of_slopesAlongRest hq)

/-- A compiled model reads nothing but its declared variables. -/
theorem readsDeclared_of_compile (h : compile spec = .ok m) :
    ∀ e ∈ m.formulas, ReadsDeclared spec e := by
  obtain ⟨_, -, h⟩ := exists_of_bind_eq_ok h
  obtain ⟨value, hvalue, h⟩ := exists_of_bind_eq_ok h
  obtain ⟨⟨es, qs⟩, hderivatives, h⟩ := exists_of_bind_eq_ok h
  obtain ⟨cs, hcurvatures, h⟩ := exists_of_bind_eq_ok h
  obtain rfl := Except.ok.inj h
  have hvalue' := readsDeclared_of_compileIn hvalue
  obtain ⟨hes, hqs⟩ := readsDeclared_of_compileDerivatives hvalue' hderivatives
  have hcs := readsDeclared_of_compileCurvatures hes hcurvatures
  refine List.forall_mem_cons.mpr ⟨hvalue', List.forall_mem_append.mpr ⟨hes, ?_⟩⟩
  exact List.forall_mem_map.mpr (List.forall_mem_append.mpr ⟨hqs, hcs⟩)

end Model

end FormulaCalculus
