import FormulaCalculus.Proofs.Derivative.Shape
import FormulaCalculus.Proofs.Model.DerivativeFormulas

/-!
The columns of a Jacobian. A derivative stretches to the shape of the value where that shape has an
axis, whatever rules it was made by. A value without axes is met only by derivatives without axes,
and some rules bring in a constant of scalar shape, which has one.
-/

namespace FormulaCalculus

open Shape (volume)

/-! ### Shapes of derivatives -/

namespace UnaryFn

/-- Whether the chain rule of the function brings in a constant. -/
def ruleHasConstant : UnaryFn → Bool
  | .sqrt | .square | .log10 | .asin | .acos | .atan | .asinh | .acosh | .atanh => true
  | .neg | .abs | .exp | .log | .sin | .cos | .tan | .sinh | .cosh | .tanh => false

end UnaryFn

namespace Value

variable {α : Type} [Scalar α] {f : UnaryFn} {g : BinaryFn} {u du l r dl dr : Value α}

open Terms (Gives)

/-- Whether a value has no axis. -/
def Flat (v : Value α) : Prop := v.shape = []

omit [Scalar α] in
/-- A value without axes stretches to every shape. -/
theorem Flat.fits {s : Shape} (hs : s.isAddressable = true) (hu : u.Flat) :
    u.shape.fits s = true := by
  rw [Shape.fits_iff, hu]
  exact ⟨Shape.nil_stretchesTo s, hs⟩

theorem Flat.onValue (hu : u.Flat) (f : UnaryFn) : (f.onValue u).Flat :=
  (UnaryFn.shape_onValue f u).trans hu

theorem Flat.onValues (hl : l.Flat) (hr : r.Flat) (g : BinaryFn) : Gives Flat (g.onValues l r) := by
  intro v hv
  have hjoin := BinaryFn.shape_onValues hv
  rw [hl, hr] at hjoin
  exact (Option.some.inj hjoin).symm

/-- A rule that brings in no constant keeps to values without axes. -/
theorem Flat.unaryRule (hf : f.ruleHasConstant = false) (hu : u.Flat) (hdu : du.Flat) :
    Gives Flat (Terms.unaryRule f u du) := by
  have hproduct {v : Value α} (hv : v.Flat) : Gives Flat (BinaryFn.mul.onValues v du) :=
    hv.onValues hdu .mul
  have hquotient {v : Value α} (hv : v.Flat) : Gives Flat (BinaryFn.div.onValues du v) :=
    hdu.onValues hv .div
  cases f with
  | neg => exact .ok (hdu.onValue .neg)
  | abs => exact (hu.onValues (hu.onValue .abs) .div).bind fun v hv => hproduct hv
  | exp => exact hproduct (hu.onValue .exp)
  | log => exact hquotient hu
  | sin => exact hproduct (hu.onValue .cos)
  | cos => exact hproduct ((hu.onValue .sin).onValue .neg)
  | tan => exact hquotient ((hu.onValue .cos).onValue .square)
  | sinh => exact hproduct (hu.onValue .cosh)
  | cosh => exact hproduct (hu.onValue .sinh)
  | tanh => exact hquotient ((hu.onValue .cosh).onValue .square)
  | sqrt | square | log10 | asin | acos | atan | asinh | acosh | atanh => nomatch hf

/-- So do the rules of all functions of two values but the power. -/
theorem Flat.binaryRule (hg : g ≠ .pow) (hl : l.Flat) (hr : r.Flat) (hdl : dl.Flat)
    (hdr : dr.Flat) : Gives Flat (Terms.binaryRule g l r dl dr) := by
  have hneg := hl.onValue .neg
  cases g with
  | add => exact hdl.onValues hdr .add
  | sub => exact hdl.onValues hdr .sub
  | mul =>
    refine (hdl.onValues hr .mul).bind fun x hx => ?_
    exact (hl.onValues hdr .mul).bind fun y hy => hx.onValues hy .add
  | div =>
    refine (hdl.onValues hr .mul).bind fun x hx => ?_
    refine (hneg.onValues hdr .mul).bind fun y hy => ?_
    exact (hx.onValues hy .add).bind fun z hz => hz.onValues (hr.onValue .square) .div
  | pow => exact absurd rfl hg
  | atan2 =>
    refine (hr.onValues hdl .mul).bind fun x hx => ?_
    refine (hneg.onValues hdr .mul).bind fun y hy => ?_
    refine (hx.onValues hy .add).bind fun z hz => ?_
    have hsquares := (hr.onValue .square).onValues (hl.onValue .square) .add
    exact hsquares.bind fun w hw => hz.onValues hw .div

end Value

namespace Node

variable {α β : Type} [Scalar α] {read : β → Tensor α} {n : Node α β} {wrt : String} {t : Shape}
  {v d : Value α}

theorem stretches_eval (hleaves : ∀ s ∈ n.leafShapes fun b => (read b).shape, s.StretchesTo t)
    (hv : n.eval read = .ok v) : v.shape.StretchesTo t :=
  (Shape.isJoint_of_joinAll? (shape_eval hv) t).mpr hleaves

/-- The derivative stretches to every shape with an axis that all leaves stretch to. -/
theorem stretches_diff (ht : t ≠ [])
    (hleaves : ∀ s ∈ n.leafShapes fun b => (read b).shape, s.StretchesTo t)
    (hd : n.diff read wrt = .ok d) : d.shape.StretchesTo t := by
  have hclosed := Value.closed_shape (α := α) ht
  induction n generalizing d with
  | constant c =>
    obtain rfl := Except.ok.inj hd
    exact hleaves c.shape List.mem_cons_self
  | tensor a =>
    obtain rfl := Except.ok.inj hd
    exact hleaves a.shape List.mem_cons_self
  | variableLeaf name b =>
    obtain rfl := Except.ok.inj hd
    have hb := hleaves (read b).shape List.mem_cons_self
    split_ifs <;> exact hb
  | unary f a ih =>
    have hchild : ∀ s ∈ a.leafShapes fun b => (read b).shape, s.StretchesTo t := hleaves
    obtain ⟨du, hdu, hd⟩ := exists_of_bind_eq_ok hd
    split_ifs at hd
    · obtain rfl := Except.ok.inj hd
      exact ih hchild hdu
    · obtain ⟨u, hu, hd⟩ := exists_of_bind_eq_ok hd
      exact hclosed.unaryRule f (stretches_eval hchild hu) (ih hchild hdu) d hd
  | binary f a b iha ihb =>
    obtain ⟨hleft, hright⟩ := List.forall_mem_append.mp hleaves
    obtain ⟨dl, hdl, hd⟩ := exists_of_bind_eq_ok hd
    obtain ⟨dr, hdr, hd⟩ := exists_of_bind_eq_ok hd
    split_ifs at hd
    · exact hclosed.binary .add dl dr d (iha hleft hdl) (ihb hright hdr) hd
    · obtain ⟨l, hl, hd⟩ := exists_of_bind_eq_ok hd
      obtain ⟨r, hr, hd⟩ := exists_of_bind_eq_ok hd
      exact hclosed.binaryRule f (stretches_eval hleft hl) (stretches_eval hright hr)
        (iha hleft hdl) (ihb hright hdr) d hd

/-- Whether no rule that differentiates the tree brings in a constant. -/
def RulesLackConstants : Node α β → Prop
  | constant _ | tensor _ | variableLeaf _ _ => True
  | unary f a => f.ruleHasConstant = false ∧ a.RulesLackConstants
  | binary f a b => f ≠ .pow ∧ a.RulesLackConstants ∧ b.RulesLackConstants

/-- Without such a rule the derivative of a tree of leaves without axes has no axis. -/
theorem flat_diff (hn : n.RulesLackConstants)
    (hleaves : ∀ s ∈ n.leafShapes fun b => (read b).shape, s = [])
    (hd : n.diff read wrt = .ok d) : d.Flat := by
  have hflat {a : Node α β} {v : Value α} (hv : a.eval read = .ok v)
      (h : ∀ s ∈ a.leafShapes fun b => (read b).shape, s = []) : v.Flat := by
    apply Shape.eq_nil_of_stretchesTo
    exact stretches_eval (fun s hs => h s hs ▸ .refl []) hv
  induction n generalizing d with
  | constant c =>
    obtain rfl := Except.ok.inj hd
    exact hleaves c.shape List.mem_cons_self
  | tensor a =>
    obtain rfl := Except.ok.inj hd
    exact hleaves a.shape List.mem_cons_self
  | variableLeaf name b =>
    obtain rfl := Except.ok.inj hd
    have hb := hleaves (read b).shape List.mem_cons_self
    split_ifs <;> exact hb
  | unary f a ih =>
    have hchild : ∀ s ∈ a.leafShapes fun b => (read b).shape, s = [] := hleaves
    obtain ⟨du, hdu, hd⟩ := exists_of_bind_eq_ok hd
    split_ifs at hd
    · obtain rfl := Except.ok.inj hd
      exact ih hn.2 hchild hdu
    · obtain ⟨u, hu, hd⟩ := exists_of_bind_eq_ok hd
      exact Value.Flat.unaryRule hn.1 (hflat hu hchild) (ih hn.2 hchild hdu) d hd
  | binary f a b iha ihb =>
    obtain ⟨hleft, hright⟩ := List.forall_mem_append.mp hleaves
    obtain ⟨hf, ha, hb⟩ := hn
    obtain ⟨dl, hdl, hd⟩ := exists_of_bind_eq_ok hd
    obtain ⟨dr, hdr, hd⟩ := exists_of_bind_eq_ok hd
    have hdl' := iha ha hleft hdl
    have hdr' := ihb hb hright hdr
    split_ifs at hd
    · exact hdl'.onValues hdr' .add d hd
    · obtain ⟨l, hl, hd⟩ := exists_of_bind_eq_ok hd
      obtain ⟨r, hr, hd⟩ := exists_of_bind_eq_ok hd
      exact Value.Flat.binaryRule hf (hflat hl hleft) (hflat hr hright) hdl' hdr' d hd

end Node

/-! ### Columns -/

namespace Model

variable {α : Type} [Scalar α] {spec : ModelSpec} {m : Model α} {s : Store α} {values : List α}
  {shape : Shape} {q : Quantity α} {v : Value α}

/-- The output has the joint shape of the variables and constants of the formula. -/
theorem leafShape?_of_outputShape (h : m.outputShape s = .ok shape) :
    m.value.root.leafShape? (fun name => (s.read name).shape) = some shape := by
  obtain ⟨v, hv, h⟩ := exists_of_bind_eq_ok h
  obtain rfl := Except.ok.inj h
  exact Node.shape_eval (mapError_eq_ok_iff.mp hv)

/-- A model has as many values as its output shape has places. -/
theorem length_values (h : m.values s = .ok values) (hshape : m.outputShape s = .ok shape) :
    values.length = volume shape := by
  obtain ⟨a, ha, h⟩ := exists_of_bind_eq_ok h
  obtain rfl := Except.ok.inj h
  obtain ⟨v, hv, ha⟩ := exists_of_bind_eq_ok ha
  obtain ⟨v', hv', hshape⟩ := exists_of_bind_eq_ok hshape
  obtain rfl := Except.ok.inj (hv.symm.trans hv')
  obtain rfl := Except.ok.inj hshape
  obtain ⟨-, -, rfl⟩ := Value.toTensor_eq_ok_iff.mp (mapError_eq_ok_iff.mp ha)
  rw [v.filling.length_data, Value.shape_filling]

/-- A real value of a shape that a tensor can have gives a column if it stretches to the shape of
the column, and is refused for its own otherwise. -/
theorem columnOf_of_isReal (hq : q.eval s = .ok v) (hv : v.IsReal)
    (haddressable : v.shape.isAddressable = true) :
    (v.shape.fits shape = true → ∃ c, columnOf s shape q = .ok c) ∧
      (¬ v.shape.fits shape = true →
        columnOf s shape q = .error (.algebra (.broadcast v.shape shape))) := by
  have htensor : v.toTensor = .ok v.filling :=
    Value.toTensor_eq_ok_iff.mpr ⟨hv, Value.fillable_of_isAddressable haddressable, rfl⟩
  have hcolumn : columnOf s shape q =
      if h : v.filling.shape.fits shape = true then
        .ok ⟨v.filling.entriesIn shape, Tensor.length_entriesIn h⟩
      else .error (.algebra (.broadcast v.filling.shape shape)) := by
    unfold columnOf
    rw [hq]
    change (v.toTensor.mapError Error.algebra >>= _) = _
    rw [htensor]
    rfl
  rw [hcolumn, ← Value.shape_filling]
  constructor
  · intro hfits
    exact ⟨_, dif_pos hfits⟩
  · intro hfits
    exact dif_neg hfits

/-- Where the value has an axis, every derivative stretches to its shape. -/
theorem fits_of_axes (hshape : m.outputShape s = .ok shape)
    (haddressable : shape.isAddressable = true) (hne : shape ≠ []) {name : String} {d : Value α}
    (hd : m.value.diff s.read name = .ok d) : d.shape.fits shape = true := by
  have hleaves := (Shape.isJoint_of_joinAll? (leafShape?_of_outputShape hshape) shape).mp (.refl _)
  have hstretch := Node.stretches_diff hne hleaves (mapError_eq_ok_iff.mp hd)
  exact Shape.fits_iff.mpr ⟨hstretch, haddressable⟩

/-- Where a tensor can have the shape of the value, one can have that of every derivative. -/
theorem isAddressable_diff (hshape : m.outputShape s = .ok shape)
    (haddressable : shape.isAddressable = true) {name : String} {d : Value α}
    (hd : m.value.diff s.read name = .ok d) : d.shape.isAddressable = true := by
  by_cases hne : shape = []
  · -- leaves without axes stretch to the shape of the constants that the rules bring in
    subst hne
    have hleaves := (Shape.isJoint_of_joinAll? (leafShape?_of_outputShape hshape) []).mp (.refl _)
    have hscalar : Shape.StretchesTo [] Shape.scalar := (Shape.fits_iff.mp rfl).1
    have hstretch := Node.stretches_diff (List.cons_ne_nil 1 [])
      (fun t ht => (hleaves t ht).trans hscalar) (mapError_eq_ok_iff.mp hd)
    exact Shape.isAddressable_of_stretchesTo hstretch (by decide)
  · have hfits := Shape.fits_iff.mp (fits_of_axes hshape haddressable hne hd)
    exact Shape.isAddressable_of_stretchesTo hfits.1 hfits.2

theorem columnOf_slope_of_isReal (hshape : m.outputShape s = .ok shape)
    (haddressable : shape.isAddressable = true) {name : String} {d : Value α}
    (hd : m.value.diff s.read name = .ok d) (hreal : d.IsReal) :
    (d.shape.fits shape = true → ∃ c, columnOf s shape (.slope m.value name) = .ok c) ∧
      (¬ d.shape.fits shape = true →
        columnOf s shape (.slope m.value name) = .error (.algebra (.broadcast d.shape shape))) := by
  have hslope : (Quantity.slope m.value name).eval s = .ok d := hd
  exact columnOf_of_isReal hslope hreal (isAddressable_diff hshape haddressable hd)

section

variable [DecimalText α]

/-- The Jacobian of a model without supplied derivatives has its columns where every derivative
stretches to the shape of the value. -/
theorem Symbolic.jacobian_fits_iff (hm : m.Symbolic) (hshape : m.outputShape s = .ok shape)
    (haddressable : shape.isAddressable = true)
    (hdiff : ∀ name ∈ m.spec.parameters, ∃ d, m.value.diff s.read name = .ok d ∧ d.IsReal) :
    (∃ J, m.jacobian s = .ok J) ↔ ∀ name ∈ m.spec.parameters, ∀ d,
      m.value.diff s.read name = .ok d → d.shape.fits shape = true := by
  constructor
  · rintro ⟨J, hJ⟩ name hname d hd
    obtain ⟨shape', columns, hshape', hcolumns, -⟩ := jacobian_eq_ok_iff.mp hJ
    obtain rfl := Except.ok.inj (hshape.symm.trans hshape')
    rw [hm.slopes, List.mapM_map] at hcolumns
    obtain ⟨c, hc⟩ := exists_mapM_eq_ok_iff.mp ⟨columns, hcolumns⟩ name hname
    obtain ⟨d', hd', hreal⟩ := hdiff name hname
    obtain rfl := Except.ok.inj (hd.symm.trans hd')
    by_contra hfits
    nomatch hc.symm.trans ((columnOf_slope_of_isReal hshape haddressable hd hreal).2 hfits)
  · intro hfits
    obtain ⟨columns, hcolumns⟩ : ∃ columns, m.slopes.mapM (columnOf s shape) = .ok columns := by
      rw [hm.slopes, List.mapM_map]
      apply exists_mapM_eq_ok_iff.mpr
      intro name hname
      obtain ⟨d, hd, hreal⟩ := hdiff name hname
      exact (columnOf_slope_of_isReal hshape haddressable hd hreal).1 (hfits name hname d hd)
    exact ⟨_, jacobian_eq_ok_iff.mpr ⟨shape, columns, hshape, hcolumns, rfl⟩⟩

/-- It is refused for the shape of a derivative that does not. -/
theorem Symbolic.jacobian_refused (hm : m.Symbolic) (hshape : m.outputShape s = .ok shape)
    (haddressable : shape.isAddressable = true)
    (hdiff : ∀ name ∈ m.spec.parameters, ∃ d, m.value.diff s.read name = .ok d ∧ d.IsReal)
    {e : Error α} (h : m.jacobian s = .error e) :
    ∃ name ∈ m.spec.parameters, ∃ d, m.value.diff s.read name = .ok d ∧
      ¬ d.shape.fits shape = true ∧ e = .algebra (.broadcast d.shape shape) := by
  unfold jacobian at h
  rw [hshape] at h
  change (m.slopes.mapM (columnOf s shape) >>= _) = _ at h
  rcases bind_eq_error h with h | ⟨columns, -, h⟩
  · rw [hm.slopes, List.mapM_map] at h
    obtain ⟨before, name, after, hnames, -, hcolumn⟩ := mapM_eq_error_iff.mp h
    have hname : name ∈ m.spec.parameters := by
      rw [hnames]
      exact List.mem_append_right _ List.mem_cons_self
    obtain ⟨d, hd, hreal⟩ := hdiff name hname
    obtain ⟨hfitting, hrefused⟩ := columnOf_slope_of_isReal hshape haddressable hd hreal
    by_cases hfits : d.shape.fits shape = true
    · obtain ⟨c, hc⟩ := hfitting hfits
      nomatch hc.symm.trans hcolumn
    · refine ⟨name, hname, d, hd, hfits, ?_⟩
      exact Except.error.inj (hcolumn.symm.trans (hrefused hfits))
  · nomatch h

/-- There is a Jacobian where the value has an axis or no derivative has one. -/
theorem Symbolic.exists_jacobian_iff (hm : m.Symbolic) (hshape : m.outputShape s = .ok shape)
    (haddressable : shape.isAddressable = true)
    (hdiff : ∀ name ∈ m.spec.parameters, ∃ d, m.value.diff s.read name = .ok d ∧ d.IsReal) :
    (∃ J, m.jacobian s = .ok J) ↔ shape ≠ [] ∨ ∀ name ∈ m.spec.parameters, ∀ d,
      m.value.diff s.read name = .ok d → d.shape = [] := by
  rw [hm.jacobian_fits_iff hshape haddressable hdiff]
  constructor
  · intro h
    by_cases hne : shape = []
    · right
      intro name hname d hd
      have hstretch := (Shape.fits_iff.mp (h name hname d hd)).1
      rw [hne] at hstretch
      exact Shape.eq_nil_of_stretchesTo hstretch
    · exact Or.inl hne
  · intro h name hname d hd
    rcases h with hne | hflat
    · exact fits_of_axes hshape haddressable hne hd
    · exact Value.Flat.fits haddressable (hflat name hname d hd)

/-- A model without supplied derivatives whose value and whose derivatives are real has a Jacobian,
with a row for each value and a column for each parameter, if and only if its value has an axis or
no derivative has one. Otherwise a derivative is refused for its shape. No derivative has an axis
that the value does not have where no rule brings in a constant. -/
theorem jacobian_of_derivatives (hm : compile spec = .ok m) (hspec : spec.derivatives = none)
    (hvalues : m.values s = .ok values) (hshape : m.outputShape s = .ok shape)
    (haddressable : shape.isAddressable = true)
    (hdiff : ∀ name ∈ spec.parameters, ∃ d, m.value.diff s.read name = .ok d ∧ d.IsReal) :
    ((∃ J, m.jacobian s = .ok J) ↔ shape ≠ [] ∨ ∀ name ∈ spec.parameters, ∀ d,
        m.value.diff s.read name = .ok d → d.shape = []) ∧
      (∀ J, m.jacobian s = .ok J →
        J.rowCount = values.length ∧ J.columnCount = m.parameterCount) ∧
      (∀ e, m.jacobian s = .error e →
        shape = [] ∧ ∃ t : Shape, t ≠ [] ∧ e = .algebra (.broadcast t [])) ∧
      (m.value.root.RulesLackConstants → ∃ J, m.jacobian s = .ok J) := by
  have hsymbolic := symbolic_of_compile hm hspec
  rw [← spec_of_compile hm] at hdiff ⊢
  have hiff := hsymbolic.exists_jacobian_iff hshape haddressable hdiff
  refine ⟨hiff, ?_, ?_, ?_⟩
  · intro J hJ
    obtain ⟨shape', columns, hshape', hcolumns, rfl⟩ := jacobian_eq_ok_iff.mp hJ
    obtain rfl := Except.ok.inj (hshape.symm.trans hshape')
    have hcount := (mapM_eq_ok_iff.mp hcolumns).length_eq
    refine ⟨(length_values hvalues hshape).symm, ?_⟩
    exact hcount.symm.trans (complete_of_compile hm).length_slopes
  · intro e he
    obtain ⟨name, hname, d, hd, hunfit, rfl⟩ :=
      hsymbolic.jacobian_refused hshape haddressable hdiff he
    have hnil : shape = [] := by
      by_contra hne
      exact hunfit (fits_of_axes hshape haddressable hne hd)
    refine ⟨hnil, d.shape, ?_, by rw [hnil]⟩
    intro hflat
    exact hunfit (Value.Flat.fits haddressable hflat)
  · intro hlack
    apply hiff.mpr
    by_cases hne : shape = []
    · right
      intro name hname d hd
      subst hne
      have hleaves := (Shape.isJoint_of_joinAll? (leafShape?_of_outputShape hshape) []).mp (.refl _)
      have hflat := fun t ht => Shape.eq_nil_of_stretchesTo (hleaves t ht)
      exact Node.flat_diff hlack hflat (mapError_eq_ok_iff.mp hd)
    · exact Or.inl hne

end

/-- The product of a number without axes and a list of two. -/
theorem jacobian_of_derivatives_product :
    ∃ (m : Model Double) (s : Store Double) (J : Matrix Double),
      compile ⟨"x*y", ["x", "y"], [], none, none⟩ = .ok m ∧ (s.read "x").shape = [] ∧
        m.jacobian s = .ok J ∧ J.rowCount = 2 ∧ J.columnCount = 2 := by
  obtain ⟨m, hm⟩ : ∃ m : Model Double, compile ⟨"x*y", ["x", "y"], [], none, none⟩ = .ok m :=
    ⟨_, rfl⟩
  let x : Tensor Double := .replicate [] Scalar.two
  let y : Tensor Double := .replicate [2] Scalar.two
  let s : Store Double := (Store.empty.set "x" x).set "y" y
  obtain ⟨values, hvalues, hshape, hlength, hcount, hdiff⟩ : ∃ values, m.values s = .ok values ∧
      m.outputShape s = .ok [2] ∧ values.length = 2 ∧ m.parameterCount = 2 ∧
      ∀ name ∈ ["x", "y"], ∃ d, m.value.diff s.read name = .ok d ∧ d.IsReal := by
    obtain rfl := Except.ok.inj hm
    refine ⟨_, rfl, rfl, rfl, rfl, ?_⟩
    intro name hname
    rcases List.mem_pair.mp hname with rfl | rfl
    · exact ⟨_, rfl, trivial⟩
    · exact ⟨_, rfl, trivial⟩
  obtain ⟨hiff, hsizes, -, -⟩ :=
    jacobian_of_derivatives hm rfl hvalues hshape (by decide) hdiff
  obtain ⟨J, hJ⟩ := hiff.mpr (Or.inl (by decide))
  obtain ⟨hrows, hcolumns⟩ := hsizes J hJ
  exact ⟨m, s, J, hm, rfl, hJ, hrows.trans hlength, hcolumns.trans hcount⟩

/-- The square of a number without axes has a value and a derivative, but no Jacobian: the two that
the rule brings in gives the derivative an axis. The sine of the same number has one. -/
theorem jacobian_of_square_refused :
    (∃ (m : Model Double) (s : Store Double) (d : Value Double),
      compile ⟨"square(x)", ["x"], [], none, none⟩ = .ok m ∧ s.read "x" = .replicate [] Scalar.two ∧
        m.values s = .ok [Scalar.four] ∧ m.value.diff s.read "x" = .ok d ∧ d.IsReal ∧
        m.jacobian s = .error (.algebra (.broadcast [1] []))) ∧
    ∃ (m : Model Double) (s : Store Double) (J : Matrix Double),
      compile ⟨"sin(x)", ["x"], [], none, none⟩ = .ok m ∧ s.read "x" = .replicate [] Scalar.two ∧
        m.jacobian s = .ok J ∧ J.rowCount = 1 ∧ J.columnCount = 1 := by
  let s : Store Double := Store.empty.set "x" (.replicate [] Scalar.two)
  refine ⟨⟨_, s, _, rfl, rfl, rfl, rfl, trivial, rfl⟩, _, s, _, rfl, rfl, rfl, rfl, rfl⟩

end Model

end FormulaCalculus
