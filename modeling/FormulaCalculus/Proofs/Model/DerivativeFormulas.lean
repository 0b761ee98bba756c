import FormulaCalculus.Proofs.Model.Assembly
import FormulaCalculus.Proofs.Nearness.Derivative
import FormulaCalculus.Proofs.Scalar.DoubleLaws
import FormulaCalculus.Proofs.Tree.Compiled

/-!
The formulas of a model's derivatives. The formula of a symbolic derivative, evaluated and stretched
to the shape of the model's value, has the entries of the Jacobian's column, up to entries that are
undefined in one of the two.
-/

namespace FormulaCalculus

open Scalar (isNaN)
open LawfulRounding
open Shape (volume)

/-- Whether two numbers compare equal or are both undefined. -/
def Scalar.Same {α : Type} [Scalar α] (x y : α) : Prop := isNaN x ∧ isNaN y ∨ x == y

instance {α : Type} [Scalar α] (x y : α) : Decidable (Scalar.Same x y) :=
  inferInstanceAs (Decidable (_ ∨ _))

/-! ### Values as tensors -/

namespace Value

variable {α : Type} [Scalar α] {t : Shape} {p : Nat} {v w : Value α} {a : Tensor α}

variable [LawfulRounding α]

/-- Near values have near entries. -/
theorem Near.near_entryAt (h : Near t p v w) (ht : t.IsPlace p) (hv : v.shape.StretchesTo t)
    (hw : w.shape.StretchesTo t) : Scalar.Near (v.entryAt t p) (w.entryAt t p) := by
  have hundefined {v : Value α} (h : v.IsNan) (hv : v.shape.StretchesTo t) :
      isNaN (v.entryAt t p) := by
    obtain ⟨s, rfl⟩ := h
    have hs : (Constant.nan s : Constant α).shape.StretchesTo t := hv
    rw [entryAt_symbol ht hs]
    exact isNaN_nan
  cases h with
  | undefinedLeft h => exact Or.inl (hundefined h hv)
  | undefinedRight h => exact Or.inr (Or.inl (hundefined h hw))
  | symbols h =>
    rw [entryAt_symbol ht hv, entryAt_symbol ht hw, Constant.real, Constant.real, value_congr h]
    exact near_refl _
  | reals h => exact h.near

/-- Values that are near at every place have near entries. -/
theorem near_entriesIn (h : ∀ p, t.IsPlace p → Near t p v w) (ht : t.isAddressable = true)
    (hne : t ≠ []) (hv : v.shape.StretchesTo t) (hw : w.shape.StretchesTo t) :
    List.Forall₂ Scalar.Near (v.filling.entriesIn t) (w.filling.entriesIn t) := by
  have hlength {x : Value α} (hx : x.shape.StretchesTo t) :
      (x.filling.entriesIn t).length = volume t := by
    rw [← shape_filling] at hx
    exact Tensor.length_entriesIn_of_stretchesTo hx
  refine List.forall₂_iff_get.mpr ⟨(hlength hv).trans (hlength hw).symm, fun p hp hp' => ?_⟩
  have hplace : t.IsPlace p := ⟨ht, hlength hv ▸ hp, hne⟩
  have hnear := (h p hplace).near_entryAt hplace hv hw
  rwa [entryAt, entryAt, List.getD_eq_getElem _ _ hp, List.getD_eq_getElem _ _ hp'] at hnear

end Value

/-! ### Formulas of derivatives -/

namespace Expression

variable {α β : Type} [Scalar α] {read : β → Tensor α} {wrt : String} {e e' : Expression α β}
  {v : Value α} {a : Tensor α}

theorem evalTensor_eq_ok_iff :
    e.evalTensor read = .ok a ↔
      ∃ v, e.root.eval read = .ok v ∧ v.IsReal ∧ v.Fillable ∧ v.filling = a := by
  have hvalue (v : Value α) : e.eval read = .ok v ↔ e.root.eval read = .ok v := mapError_eq_ok_iff
  simp only [evalTensor, bind_eq_ok_iff, hvalue, mapError_eq_ok_iff, Value.toTensor_eq_ok_iff]

theorem derivative_eq_ok_iff [DecimalText α] :
    e.derivative wrt = .ok e' ↔ ∃ d, e.root.derivative wrt = .ok d ∧ ofNode d = e' := by
  have hpure (d : Node α β) : (pure (ofNode d) : Except (Error α) (Expression α β)) = .ok e' ↔
      ofNode d = e' := ⟨Except.ok.inj, congrArg Except.ok⟩
  simp only [Expression.derivative, bind_eq_ok_iff, mapError_eq_ok_iff, hpure]

end Expression

namespace Model

variable {α : Type} [Scalar α] {spec : ModelSpec} {m : Model α} {s : Store α} {i : Nat}
  {shape : Shape} {q : Quantity α}

theorem columnOf_eq_ok {c : Column α (volume shape)} (h : columnOf s shape q = .ok c) :
    ∃ v, q.eval s = .ok v ∧ v.IsReal ∧ v.shape.StretchesTo shape ∧ shape.isAddressable = true ∧
      c.entries = v.filling.entriesIn shape := by
  obtain ⟨v, hv, h⟩ := exists_of_bind_eq_ok h
  obtain ⟨a, ha, h⟩ := exists_of_bind_eq_ok h
  obtain ⟨hreal, -, rfl⟩ := Value.toTensor_eq_ok_iff.mp (mapError_eq_ok_iff.mp ha)
  split_ifs at h with hfits
  · obtain rfl := Except.ok.inj h
    obtain ⟨hstretch, haddressable⟩ := Shape.fits_iff.mp hfits
    rw [Value.shape_filling] at hstretch
    exact ⟨v, hv, hreal, hstretch, haddressable, rfl⟩

/-- What a model without supplied derivatives is compiled to. -/
structure Symbolic [DecimalText α] (m : Model α) : Prop where
  value : compileIn m.spec m.spec.expression = .ok m.value
  derivatives : m.spec.parameters.mapM (fun name => m.value.derivative name) = .ok m.derivatives
  slopes : m.slopes = m.spec.parameters.map (.slope m.value)

theorem symbolic_of_compile [DecimalText α] (h : compile spec = .ok m)
    (hspec : spec.derivatives = none) : m.Symbolic := by
  obtain ⟨_, -, h⟩ := exists_of_bind_eq_ok h
  obtain ⟨value, hvalue, h⟩ := exists_of_bind_eq_ok h
  obtain ⟨⟨es, qs⟩, hderivatives, h⟩ := exists_of_bind_eq_ok h
  obtain ⟨cs, -, h⟩ := exists_of_bind_eq_ok h
  obtain rfl := Except.ok.inj h
  rw [compileDerivatives, hspec] at hderivatives
  obtain ⟨compiled, hcompiled, hderivatives⟩ := exists_of_bind_eq_ok hderivatives
  obtain ⟨rfl, rfl⟩ := Prod.mk.inj (Except.ok.inj hderivatives)
  exact ⟨hvalue, hcompiled, rfl⟩

theorem Symbolic.derivative_formula [DecimalText α] (hm : m.Symbolic) {name : String}
    {e : StoredExpression α} (hname : m.spec.parameters[i]? = some name)
    (he : m.derivatives[i]? = some e) : m.value.derivative name = .ok e := by
  obtain ⟨hi, hparameter⟩ := List.getElem?_eq_some_iff.mp hname
  obtain ⟨hi', hformula⟩ := List.getElem?_eq_some_iff.mp he
  have hget := (mapM_eq_ok_iff.mp hm.derivatives).get hi hi'
  rwa [List.get_eq_getElem, List.get_eq_getElem, hparameter, hformula] at hget

/-- The column is the derivative's value, stretched to the shape of the model's value. -/
theorem Symbolic.exists_diff [DecimalText α] (hm : m.Symbolic) {column : List α} {name : String}
    (hname : m.spec.parameters[i]? = some name) (hshape : m.outputShape s = .ok shape)
    (hcolumn : m.derivative i s = .ok column) :
    ∃ d, m.value.root.diff s.read name = .ok d ∧ d.shape.StretchesTo shape ∧
      shape.isAddressable = true ∧ column = d.filling.entriesIn shape := by
  obtain ⟨hi, -⟩ := List.getElem?_eq_some_iff.mp hname
  have hslope : m.slopes[i]? = some (.slope m.value name) := by
    rw [hm.slopes, List.getElem?_map, hname, Option.map_some]
  rw [derivative_eq_column hi hslope, column_eq_ok_iff] at hcolumn
  obtain ⟨shape', c, hshape', hc, rfl⟩ := hcolumn
  obtain rfl := Except.ok.inj (hshape.symm.trans hshape')
  obtain ⟨d, hd, -, hdshape, haddressable, hentries⟩ := columnOf_eq_ok hc
  exact ⟨d, mapError_eq_ok_iff.mp hd, hdshape, haddressable, hentries⟩

theorem bounded_root [LawfulScalar α] (hroot : m.value.root.WellFormed)
    (hshape : m.outputShape s = .ok shape) : m.value.root.Bounded s.read shape := by
  obtain ⟨v, hv, hpure⟩ := exists_of_bind_eq_ok hshape
  obtain rfl : v.shape = shape := Except.ok.inj hpure
  exact (hroot.computes (mapError_eq_ok_iff.mp hv)).bounded

/-- The derivative's formula has the entries of the column, up to undefined entries; it has exactly
them where the two derivatives can be compared. -/
theorem Symbolic.formula_near_column [DecimalText α] [LawfulRounding α] (hm : m.Symbolic)
    (hroot : m.value.root.WellFormed) {column : List α} {e : StoredExpression α} {a : Tensor α}
    {name : String} (hname : m.spec.parameters[i]? = some name)
    (hshape : m.outputShape s = .ok shape) (haxes : shape ≠ [])
    (hpow : m.value.root.SamePowerRule s.read name)
    (hcolumn : m.derivative i s = .ok column) (he : m.derivatives[i]? = some e)
    (ha : e.evalTensor s.read = .ok a) :
    ∃ b, a.broadcastTo shape = (.ok b : Except (AlgebraError α) (Tensor α)) ∧
      List.Forall₂ Scalar.Near b.data column ∧
      ((∀ S ∈ m.value.root.subtrees, S.Comparable s.read name) → b.data = column) := by
  obtain ⟨D, hD, rfl⟩ := Expression.derivative_eq_ok_iff.mp (hm.derivative_formula hname he)
  obtain ⟨q, hq, -, -, rfl⟩ := Expression.evalTensor_eq_ok_iff.mp ha
  obtain ⟨d, hd, hdshape, haddressable, rfl⟩ := hm.exists_diff hname hshape hcolumn
  have hbounded := bounded_root hroot hshape
  have hqshape := ((Node.inherited_bounded haxes).derivative hbounded hD).shape_eval hq
  have hfits : q.filling.shape.fits shape = true := by
    rw [Value.shape_filling]
    exact Shape.fits_iff.mpr ⟨hqshape, haddressable⟩
  refine ⟨⟨shape, q.filling.entriesIn shape, Tensor.length_entriesIn hfits⟩, dif_pos hfits, ?_,
    fun hcomparable => ?_⟩
  · -- the derived tree tracks the derivative's value at every place of the shape
    refine Value.near_entriesIn (fun p ht => ?_) haddressable haxes hqshape hdshape
    exact (Node.derivative_tracks ht hbounded hpow hd hD).near q hq
  · obtain ⟨n, hn, hrefines⟩ := Node.derivative_refines hcomparable hd
    obtain rfl := Except.ok.inj (hD.symm.trans hn)
    have hdefined : ¬ d.IsNan := by
      rintro ⟨u, rfl⟩
      exact (hcomparable _ (Node.self_mem_subtrees _)).diff_ne_nan u hd
    obtain ⟨w, hw, hstretch⟩ := hrefines.eval.resolve_left hdefined
    obtain rfl := Except.ok.inj (hw.symm.trans hq)
    exact Value.entriesIn_stretchesTo hstretch hdshape

/-- A symbolic derivative's formula and the column of the Jacobian agree wherever neither is
undefined. -/
theorem formula_near_column_of_compile {spec : ModelSpec} {m : Model Double} {s : Store Double}
    {column : List Double} {e : StoredExpression Double} {a : Tensor Double} {name : String}
    (hm : compile spec = .ok m) (hspec : spec.derivatives = none)
    (hname : spec.parameters[i]? = some name) (hshape : m.outputShape s = .ok shape)
    (haxes : shape ≠ []) (hpow : m.value.root.SamePowerRule s.read name)
    (hcolumn : m.derivative i s = .ok column) (he : m.derivatives[i]? = some e)
    (ha : e.evalTensor s.read = .ok a) :
    ∃ b, a.broadcastTo shape = (.ok b : Except (AlgebraError Double) (Tensor Double)) ∧
      List.Forall₂ Scalar.Near b.data column ∧
      ((∀ S ∈ m.value.root.subtrees, S.Comparable s.read name) → b.data = column) := by
  have hsymbolic := symbolic_of_compile hm hspec
  have hroot := Expression.compile_wellFormed hsymbolic.value
  rw [← spec_of_compile hm] at hname
  exact hsymbolic.formula_near_column hroot hname hshape haxes hpow hcolumn he ha

/-- The derivative of `x^1*x` at two. -/
theorem formula_near_column_power :
    ∃ (m : Model Double) (s : Store Double) (e : StoredExpression Double) (a b : Tensor Double),
      compile ⟨"x^1*x", ["x"], [], none, none⟩ = .ok m ∧ s.read "x" = Tensor.singleton Scalar.two ∧
        m.value.root.SamePowerRule s.read "x" ∧ m.derivative 0 s = .ok [Scalar.two + Scalar.two] ∧
        m.derivatives[0]? = some e ∧ e.evalTensor s.read = .ok a ∧
        a.broadcastTo [1] = (.ok b : Except (AlgebraError Double) (Tensor Double)) ∧
        List.Forall₂ Scalar.Near b.data [Scalar.two + Scalar.two] := by
  obtain ⟨m, hm⟩ : ∃ m : Model Double, compile ⟨"x^1*x", ["x"], [], none, none⟩ = .ok m :=
    ⟨_, rfl⟩
  let x : Node Double String := .variableLeaf "x" "x"
  let s : Store Double := Store.empty.set "x" (Tensor.singleton Scalar.two)
  obtain ⟨e, hroot, hshape, hcolumn, he, ha⟩ : ∃ e,
      m.value.root = .binary .mul (.binary .pow x (.constant (.unity [1]))) x ∧
      m.outputShape s = .ok [1] ∧ m.derivative 0 s = .ok [Scalar.two + Scalar.two] ∧
      m.derivatives[0]? = some e ∧
      e.evalTensor s.read = .ok (Tensor.singleton (Scalar.two + Scalar.two)) := by
    obtain rfl := Except.ok.inj hm
    exact ⟨_, rfl, rfl, rfl, rfl, rfl⟩
  have hpow : m.value.root.SamePowerRule s.read "x" := by
    intro l r h
    obtain rfl : r = .constant (.unity [1]) := by
      simp [hroot, Node.subtrees, x] at h
      exact h.2
    exact ⟨fun _ => ⟨[1], rfl⟩, fun _ => ⟨[1], rfl⟩⟩
  obtain ⟨b, hb, hnear, -⟩ :=
    formula_near_column_of_compile hm rfl rfl hshape (by decide) hpow hcolumn he ha
  exact ⟨m, s, e, _, b, hm, rfl, hpow, hcolumn, he, ha, hb, hnear⟩

/-! ### Formulas that are not the column -/

/-- Whether the formula of a derivative, where both have a value, has exactly the entries of the
column. -/
def FormulaIsColumn (m : Model α) (i : Nat) (s : Store α) : Prop :=
  ∀ shape column e a, m.outputShape s = .ok shape → m.derivative i s = .ok column →
    m.derivatives[i]? = some e → e.evalTensor s.read = .ok a →
      ∃ b, a.broadcastTo shape = (.ok b : Except (AlgebraError α) (Tensor α)) ∧
        List.Forall₂ Scalar.Same b.data column

/-- The formula is not the column where a zero meets an undefined value, where the two take
different rules at a power, and where the value has no axis: `0 * NaN` is undefined in the column
and left out of the formula, the quotient of the general rule overflows at a small base, and a one
of shape `[1]` does not stretch to shape `[]`. -/
theorem not_formulaIsColumn :
    (∃ m : Model Double, compile ⟨"1*(x+0/0)", ["x"], [], none, none⟩ = .ok m ∧
      ¬ m.FormulaIsColumn 0 (initialStore m.spec)) ∧
    (∃ m : Model Double, compile ⟨"x^(1+(1-1)*x)", ["x"], [], none, none⟩ = .ok m ∧
      ¬ m.FormulaIsColumn 0
        (Store.empty.set "x" (Tensor.singleton (Scalar.ofDecimal 1 (-310))))) ∧
    ∃ m : Model Double, compile ⟨"x", ["x"], [], none, none⟩ = .ok m ∧
      ¬ m.FormulaIsColumn 0 (Store.empty.set "x" (Tensor.replicate [] Scalar.one)) := by
  refine ⟨⟨_, rfl, fun h => ?_⟩, ⟨_, rfl, fun h => ?_⟩, ⟨_, rfl, fun h => ?_⟩⟩
  · obtain ⟨b, hb, hsame⟩ := h [1] [Scalar.nan] _ (Tensor.singleton Scalar.one) rfl rfl rfl rfl
    obtain rfl := Except.ok.inj hb
    have hdistinct : ¬ Scalar.Same (Scalar.one : Double) Scalar.nan := by decide +kernel
    exact hdistinct (List.forall₂_cons.mp hsame).1
  · let x : Double := Scalar.ofDecimal 1 (-310)
    obtain ⟨b, hb, hsame⟩ :=
      h [1] [Scalar.one] _ (Tensor.singleton (x * (Scalar.one / x))) rfl rfl rfl rfl
    obtain rfl := Except.ok.inj hb
    have hdistinct : ¬ Scalar.Same (x * (Scalar.one / x)) Scalar.one := by decide +kernel
    exact hdistinct (List.forall₂_cons.mp hsame).1
  · obtain ⟨b, hb, -⟩ := h [] [Scalar.one] _ (Tensor.singleton Scalar.one) rfl rfl rfl rfl
    nomatch hb

end Model

end FormulaCalculus
