import FormulaCalculus.Proofs.Algebra.Uniform
import FormulaCalculus.Proofs.Derivative.Closure
import FormulaCalculus.Proofs.Tensor.JointShape
import FormulaCalculus.Scalar.Double

/-!
Shapes of values and of their derivatives. The value of a tree has the joint shape of its leaves,
whatever symbols stand in for its parts, and where every leaf has an axis the derivative has the
same shape: the constants of the chain rules are of scalar shape, which adds no axis then.
-/

namespace FormulaCalculus

open Shape (join? joinAll?)

variable {α β : Type} [Scalar α]

namespace Value

variable {s t : Shape} {v w r u du l dl dr : Value α}

theorem closed_shape (ht : t ≠ []) :
    Terms.Closed fun v : Value α => v.shape.StretchesTo t where
  one := Shape.scalar_stretchesTo ht
  half := Shape.scalar_stretchesTo ht
  two := Shape.scalar_stretchesTo ht
  ln10 := Shape.scalar_stretchesTo ht
  unary f v hv := by
    change (f.onValue v).shape.StretchesTo t
    rwa [UnaryFn.shape_onValue]
  binary _ _ _ _ hv hw hr := Shape.StretchesTo.of_join (BinaryFn.shape_onValues hr) hv hw

/-- Whether the shape of a value lies between two shapes. -/
structure Between (s t : Shape) (v : Value α) : Prop where
  lower : s.StretchesTo v.shape
  upper : v.shape.StretchesTo t

omit [Scalar α] in
theorem Between.of_shape (h : v.shape = s) (hst : s.StretchesTo t) : v.Between s t :=
  ⟨h ▸ .refl s, h ▸ hst⟩

theorem Between.onValue (h : v.Between s t) (f : UnaryFn) : (f.onValue v).Between s t := by
  refine ⟨?_, ?_⟩
  · rw [UnaryFn.shape_onValue]
    exact h.lower
  · rw [UnaryFn.shape_onValue]
    exact h.upper

/-- A function of two values has a shape that both stretch to, so one of them is enough to keep it
above `s`. -/
theorem Between.onValues {f : BinaryFn} (hv : v.shape.StretchesTo t) (hw : w.shape.StretchesTo t)
    (hside : v.Between s t ∨ w.Between s t) (hr : f.onValues v w = .ok r) : r.Between s t := by
  have hjoin := BinaryFn.shape_onValues hr
  obtain ⟨hvr, hwr⟩ := Shape.join?_eq_some hjoin
  refine ⟨?_, .of_join hjoin hv hw⟩
  rcases hside with hside | hside
  · exact hside.lower.trans hvr
  · exact hside.lower.trans hwr

/-- The values whose shape lies between two shapes are an ideal. -/
theorem ideal_between (ht : t ≠ []) (s : Shape) :
    Terms.Ideal (fun v : Value α => v.shape.StretchesTo t) (Between s t) where
  toClosed := closed_shape ht
  le _ h := h.upper
  neg _ h := h.onValue .neg
  add _ _ hv hw _ hr := .onValues hv.upper hw.upper (Or.inl hv) hr
  sub _ _ hv hw _ hr := .onValues hv.upper hw.upper (Or.inl hv) hr
  mul _ _ hv hw h _ hr := .onValues hv hw h hr
  div _ _ hv hw _ hr := .onValues hv.upper hw (Or.inl hv) hr

theorem shape_unaryRule {f : UnaryFn} (hs : s ≠ []) (hu : u.shape = s) (hdu : du.shape = s)
    (h : Terms.unaryRule f u du = .ok v) : v.shape = s := by
  have hrule := (ideal_between hs s).unaryRule f (hu ▸ .refl s) (.of_shape hdu (.refl s)) v h
  exact hrule.upper.antisymm hrule.lower

/-- A derivative has the joint shape of the operands, if each operand's derivative has the shape of
the operand. -/
theorem shape_binaryRule {f : BinaryFn} (ht : t ≠ []) (hjoin : join? l.shape r.shape = some t)
    (hdl : dl.shape = l.shape) (hdr : dr.shape = r.shape)
    (h : Terms.binaryRule f l r dl dr = .ok v) : v.shape = t := by
  have hsum {g : BinaryFn} (hg : g.onValues dl dr = .ok v) : v.shape = t := by
    have hjoin' := BinaryFn.shape_onValues hg
    rw [hdl, hdr] at hjoin'
    exact Option.some.inj (hjoin'.symm.trans hjoin)
  by_cases hadd : f = .add
  · obtain rfl := hadd
    exact hsum h
  by_cases hsub : f = .sub
  · obtain rfl := hsub
    exact hsum h
  obtain ⟨hl, hr⟩ := Shape.join?_eq_some hjoin
  have hdl' : dl.shape.StretchesTo t := hdl ▸ hl
  have hdr' : dr.shape.StretchesTo t := hdr ▸ hr
  -- the derivative lies above the left operand and above the right one, so above both
  have hleft := (ideal_between ht l.shape).productRule hadd hsub (fun h => h.onValue .log) hl hr
    hdl' hdr' (Or.inl ⟨.of_shape rfl hl, .of_shape hdl hl⟩) v h
  have hright := (ideal_between ht r.shape).productRule hadd hsub (fun h => h.onValue .log) hl hr
    hdl' hdr' (Or.inr ⟨.of_shape rfl hr, .of_shape hdr hr⟩) v h
  exact hleft.upper.antisymm (.of_join hjoin hleft.lower hright.lower)

end Value

namespace Node

/-- The shapes of the leaves from left to right, where bindings have the given shapes. -/
def leafShapes (shapeOf : β → Shape) : Node α β → List Shape
  | constant c => [c.shape]
  | tensor a => [a.shape]
  | variableLeaf _ b => [shapeOf b]
  | unary _ a => a.leafShapes shapeOf
  | binary _ a b => a.leafShapes shapeOf ++ b.leafShapes shapeOf

/-- The shape that all leaves are stretched to, if there is one. -/
def leafShape? (shapeOf : β → Shape) (a : Node α β) : Option Shape :=
  joinAll? (a.leafShapes shapeOf)

variable {read : β → Tensor α} {a b n : Node α β} {v d : Value α} {wrt : String}

omit [Scalar α] in
theorem leafShape?_binary (shapeOf : β → Shape) (f : BinaryFn) (a b : Node α β) :
    (binary f a b).leafShape? shapeOf =
      (a.leafShape? shapeOf).bind fun s => (b.leafShape? shapeOf).bind fun t => join? s t :=
  Shape.joinAll?_append _ _

omit [Scalar α] in
theorem leafShapes_ne_nil (shapeOf : β → Shape) (a : Node α β) : a.leafShapes shapeOf ≠ [] := by
  induction a with
  | constant _ | tensor _ | variableLeaf _ _ => exact List.cons_ne_nil _ _
  | unary f a ih => exact ih
  | binary f a b iha ihb => exact List.append_ne_nil_of_left_ne_nil iha _

/-- A value has the joint shape of the leaves. -/
theorem shape_eval (h : n.eval read = .ok v) :
    n.leafShape? (fun b => (read b).shape) = some v.shape := by
  induction n generalizing v with
  | constant c =>
    obtain rfl := Except.ok.inj h
    exact Shape.joinAll?_singleton c.shape
  | tensor a =>
    obtain rfl := Except.ok.inj h
    exact Shape.joinAll?_singleton a.shape
  | variableLeaf name b =>
    obtain rfl := Except.ok.inj h
    exact Shape.joinAll?_singleton (read b).shape
  | unary f a ih =>
    obtain ⟨x, hx, h⟩ := exists_of_bind_eq_ok h
    obtain rfl := Except.ok.inj h
    rw [UnaryFn.shape_onValue]
    exact ih hx
  | binary f a b iha ihb =>
    obtain ⟨x, hx, h⟩ := exists_of_bind_eq_ok h
    obtain ⟨y, hy, h⟩ := exists_of_bind_eq_ok h
    rw [leafShape?_binary, iha hx, ihb hy]
    exact BinaryFn.shape_onValues h

theorem shape_eval_ne_nil (hleaves : ∀ s ∈ n.leafShapes fun b => (read b).shape, s ≠ [])
    (h : n.eval read = .ok v) : v.shape ≠ [] :=
  Shape.ne_nil_of_joinAll? (shape_eval h) (leafShapes_ne_nil _ n) hleaves

theorem shape_diff (hleaves : ∀ s ∈ n.leafShapes fun b => (read b).shape, s ≠ [])
    (hv : n.eval read = .ok v) (hd : n.diff read wrt = .ok d) : d.shape = v.shape := by
  induction n generalizing v d with
  | constant c =>
    obtain rfl := Except.ok.inj hv
    obtain rfl := Except.ok.inj hd
    rfl
  | tensor a =>
    obtain rfl := Except.ok.inj hv
    obtain rfl := Except.ok.inj hd
    rfl
  | variableLeaf name b =>
    obtain rfl := Except.ok.inj hv
    obtain rfl := Except.ok.inj hd
    split_ifs <;> rfl
  | unary f a ih =>
    obtain ⟨u, hu, hv⟩ := exists_of_bind_eq_ok hv
    obtain rfl := Except.ok.inj hv
    obtain ⟨du, hdu, hd⟩ := exists_of_bind_eq_ok hd
    have hchild : ∀ s ∈ a.leafShapes fun b => (read b).shape, s ≠ [] := hleaves
    have hshape := ih hchild hu hdu
    rw [UnaryFn.shape_onValue]
    split_ifs at hd
    · obtain rfl := Except.ok.inj hd
      exact hshape
    · obtain ⟨u', hu', hd⟩ := exists_of_bind_eq_ok hd
      obtain rfl := Except.ok.inj (hu.symm.trans hu')
      exact Value.shape_unaryRule (shape_eval_ne_nil hchild hu) rfl hshape hd
  | binary f a b iha ihb =>
    have hne := shape_eval_ne_nil hleaves hv
    obtain ⟨hleft, hright⟩ := List.forall_mem_append.mp hleaves
    obtain ⟨l, hl, hv⟩ := exists_of_bind_eq_ok hv
    obtain ⟨r, hr, hv⟩ := exists_of_bind_eq_ok hv
    have hjoin := BinaryFn.shape_onValues hv
    obtain ⟨dl, hdl, hd⟩ := exists_of_bind_eq_ok hd
    obtain ⟨dr, hdr, hd⟩ := exists_of_bind_eq_ok hd
    have hshapel := iha hleft hl hdl
    have hshaper := ihb hright hr hdr
    split_ifs at hd
    · -- two symbols for zero are added, in place of the rule
      have hsum := BinaryFn.shape_onValues hd
      rw [hshapel, hshaper] at hsum
      exact Option.some.inj (hsum.symm.trans hjoin)
    · obtain ⟨l', hl', hd⟩ := exists_of_bind_eq_ok hd
      obtain ⟨r', hr', hd⟩ := exists_of_bind_eq_ok hd
      obtain rfl := Except.ok.inj (hl.symm.trans hl')
      obtain rfl := Except.ok.inj (hr.symm.trans hr')
      exact Value.shape_binaryRule hne hjoin hshapel hshaper hd

/-- A value and its derivative have one shape, the joint shape of the leaves. -/
theorem shape_value_and_derivative (hleaves : ∀ s ∈ n.leafShapes fun b => (read b).shape, s ≠ [])
    (hv : n.eval read = .ok v) (hd : n.diff read wrt = .ok d) :
    d.shape = v.shape ∧ n.leafShape? (fun b => (read b).shape) = some v.shape :=
  ⟨shape_diff hleaves hv hd, shape_eval hv⟩

/-- A column `x` to the power of a row `y`. -/
theorem shape_value_and_derivative_power :
    let n : Node Double Bool := .binary .pow (.variableLeaf "x" true) (.variableLeaf "y" false)
    let read (b : Bool) : Tensor Double :=
      if b then .replicate [2, 1] Scalar.two else .replicate [3] Scalar.half
    (∀ s ∈ n.leafShapes fun b => (read b).shape, s ≠ []) ∧
      ∃ v d, n.eval read = .ok v ∧ n.diff read "x" = .ok d ∧ d.shape = v.shape ∧
        n.leafShape? (fun b => (read b).shape) = some v.shape := by
  intro n read
  have hleaves : ∀ s ∈ n.leafShapes fun b => (read b).shape, s ≠ [] := by decide
  obtain ⟨v, hv⟩ : ∃ v, n.eval read = .ok v := ⟨_, rfl⟩
  obtain ⟨d, hd⟩ : ∃ d, n.diff read "x" = .ok d := ⟨_, rfl⟩
  exact ⟨hleaves, v, d, hv, hd, shape_value_and_derivative hleaves hv hd⟩

end Node

end FormulaCalculus
