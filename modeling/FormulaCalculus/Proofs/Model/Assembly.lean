import Mathlib.Data.List.Forall2
import FormulaCalculus.Proofs.Model.Triangle
import FormulaCalculus.Proofs.Tensor.Stretching
import FormulaCalculus.Scalar.Double

/-!
The tables of a compiled model. A model keeps one quantity for each parameter and one for each pair
of parameters, so no position of a parameter is out of range, and every way to read a derivative
finds the same column: alone, in the Jacobian or in the Hessian.
-/

namespace FormulaCalculus

/-! ### Calculations -/

theorem mapError_eq_ok_iff {ε ε' β : Type} {x : Except ε β} {g : ε → ε'} {b : β} :
    x.mapError g = .ok b ↔ x = .ok b := by
  cases x with
  | error e => exact ⟨fun h => (nomatch h), fun h => (nomatch h)⟩
  | ok c =>
    constructor
    · intro h
      rw [Except.ok.inj h]
    · intro h
      rw [Except.ok.inj h]
      rfl

/-- A calculation for each entry of a list succeeds if each of them does. -/
theorem mapM_eq_ok_iff {ε β γ : Type} {f : β → Except ε γ} {l : List β} {r : List γ} :
    l.mapM f = .ok r ↔ List.Forall₂ (fun b c => f b = .ok c) l r := by
  induction l generalizing r with
  | nil =>
    rw [List.mapM_nil]
    constructor
    · intro h
      obtain rfl := Except.ok.inj h
      exact .nil
    · intro h
      cases h
      rfl
  | cons b l ih =>
    rw [List.mapM_cons]
    constructor
    · intro h
      obtain ⟨c, hc, h⟩ := exists_of_bind_eq_ok h
      obtain ⟨cs, hcs, h⟩ := exists_of_bind_eq_ok h
      obtain rfl := Except.ok.inj h
      exact .cons hc (ih.mp hcs)
    · intro h
      cases h with
      | cons hc hcs =>
        rw [hc, ih.mpr hcs]
        rfl

theorem exists_of_mem_forall₂ {β γ : Type} {R : β → γ → Prop} {l : List β} {r : List γ}
    (h : List.Forall₂ R l r) {b : β} (hb : b ∈ l) : ∃ c ∈ r, R b c := by
  obtain ⟨k, hk, rfl⟩ := List.getElem_of_mem hb
  have hkr : k < r.length := h.length_eq ▸ hk
  exact ⟨r[k], List.getElem_mem hkr, h.get hk hkr⟩

theorem exists_forall₂ {β γ : Type} {R : β → γ → Prop} {l : List β} (h : ∀ b ∈ l, ∃ c, R b c) :
    ∃ r, List.Forall₂ R l r := by
  induction l with
  | nil => exact ⟨[], .nil⟩
  | cons b l ih =>
    obtain ⟨c, hc⟩ := h b List.mem_cons_self
    obtain ⟨r, hr⟩ := ih fun b hb => h b (List.mem_cons_of_mem _ hb)
    exact ⟨c :: r, .cons hc hr⟩

theorem exists_mapM_eq_ok_iff {ε β γ : Type} {f : β → Except ε γ} {l : List β} :
    (∃ r, l.mapM f = .ok r) ↔ ∀ b ∈ l, ∃ c, f b = .ok c := by
  constructor
  · rintro ⟨r, hr⟩ b hb
    obtain ⟨c, -, hc⟩ := exists_of_mem_forall₂ (mapM_eq_ok_iff.mp hr) hb
    exact ⟨c, hc⟩
  · intro h
    obtain ⟨r, hr⟩ := exists_forall₂ h
    exact ⟨r, mapM_eq_ok_iff.mpr hr⟩

/-- Positions of a list can be run through instead of its entries. -/
theorem mapIndices_eq_mapM {ε β γ : Type} {f : Nat → Except ε γ} {g : β → Except ε γ} {l : List β}
    (h : ∀ j b, l[j]? = some b → f j = g b) : mapIndices l.length f = l.mapM g := by
  induction l generalizing f with
  | nil => rfl
  | cons b l ih =>
    have htail := ih fun j b' hb => h (j + 1) b' (List.getElem?_cons_succ.trans hb)
    rw [mapIndices, List.length_cons, List.range_succ_eq_map, List.mapM_cons, List.mapM_cons,
      List.mapM_map, h 0 b List.getElem?_cons_zero, ← htail]
    rfl

/-! ### Cubes and matrices -/

/-- The entry of a cube for a point and a pair of positions. -/
def Cube.entryAt {α : Type} (c : Cube α) (p i j : Nat) : Option α :=
  c.planes[p]?.bind fun plane => plane[i]?.bind fun row => row[j]?

/-- A cube has the entries of its columns. -/
theorem Cube.entryAt_eq {α : Type} {c : Cube α} {i j : Nat} {row : List (Column α c.pointCount)}
    {d : Column α c.pointCount} (hrow : c.columns[i]? = some row) (hd : row[j]? = some d)
    (p : Nat) : c.entryAt p i j = d.entries[p]? := by
  by_cases hp : p < c.pointCount
  · have hplane : c.planes[p]? =
        some (c.columns.map fun row => row.map fun d => d.get ⟨p, hp⟩) := by
      simp [planes, hp]
    have hentry : d.entries[p]? = some (d.get ⟨p, hp⟩) :=
      List.getElem?_eq_getElem (d.length_entries.symm ▸ hp)
    simp only [entryAt, hplane, Option.bind_some, List.getElem?_map, hrow, hd, Option.map_some,
      hentry]
  · have hplane : c.planes[p]? = none := by
      simp [planes, Nat.le_of_not_lt hp]
    have hentry : d.entries[p]? = none := by
      rw [List.getElem?_eq_none_iff, d.length_entries]
      exact Nat.le_of_not_lt hp
    rw [entryAt, hplane, hentry]
    rfl

theorem Cube.entryAt_ofTriangle {α : Type} {n pointCount i j : Nat} {x : α}
    {triangle : List ((Nat × Nat) × Column α pointCount)} {c : Column α pointCount} (hi : i < n)
    (hj : j < n) (h : lookup triangle i j = some c) (p : Nat) :
    (ofTriangle n pointCount x triangle).entryAt p i j = c.entries[p]? := by
  let row (i : Nat) : List (Column α pointCount) :=
    (List.range n).map fun j => (lookup triangle i j).getD (.constant pointCount x)
  have hrow : ((List.range n).map row)[i]? = some (row i) := by
    rw [List.getElem?_map, List.getElem?_range hi, Option.map_some]
  have hentry : (row i)[j]? = some c := by
    rw [List.getElem?_map, List.getElem?_range hj, Option.map_some, h, Option.getD_some]
  exact entryAt_eq (c := ofTriangle n pointCount x triangle) hrow hentry p

theorem Cube.lookup_comm {α : Type} {n : Nat} (triangle : List ((Nat × Nat) × Column α n))
    (i j : Nat) : lookup triangle i j = lookup triangle j i := by
  simp only [lookup, Bool.or_comm]

/-- A pair is found if the triangle has it, one way round or the other. -/
theorem Cube.exists_lookup_either {α : Type} {n i j : Nat}
    {triangle : List ((Nat × Nat) × Column α n)}
    (hmem : ∃ e ∈ triangle, e.1 = (i, j) ∨ e.1 = (j, i)) :
    ∃ e ∈ triangle, (e.1 = (i, j) ∨ e.1 = (j, i)) ∧ lookup triangle i j = some e.2 := by
  have hsome : (triangle.find? fun e => e.1 == (i, j) || e.1 == (j, i)).isSome := by
    rw [List.find?_isSome]
    obtain ⟨e, he, hpair⟩ := hmem
    exact ⟨e, he, by simpa using hpair⟩
  obtain ⟨e, hfind⟩ := Option.isSome_iff_exists.mp hsome
  have htest := List.find?_some hfind
  simp only [Bool.or_eq_true, beq_iff_eq] at htest
  exact ⟨e, List.mem_of_find?_eq_some hfind, htest, by rw [lookup, hfind]; rfl⟩

/-- A pair is found at its own place when no pair of the triangle is the wrong way round. -/
theorem Cube.exists_lookup {α : Type} {n i j : Nat} {triangle : List ((Nat × Nat) × Column α n)}
    (hup : ∀ e ∈ triangle, e.1.1 ≤ e.1.2) (hij : i ≤ j) (hmem : ∃ e ∈ triangle, e.1 = (i, j)) :
    ∃ e ∈ triangle, e.1 = (i, j) ∧ lookup triangle i j = some e.2 := by
  obtain ⟨e, he, hpair⟩ := hmem
  obtain ⟨e', he', hfound, hlookup⟩ := exists_lookup_either ⟨e, he, Or.inl hpair⟩
  refine ⟨e', he', ?_, hlookup⟩
  rcases hfound with h | h
  · exact h
  · -- the other way round it is the same pair, as no pair of the triangle is reversed
    have hle := hup e' he'
    have hle' : j ≤ i := by simpa only [h] using hle
    rw [h, Nat.le_antisymm hle' hij]

theorem Matrix.checkColumns_entries {α : Type} {n : Nat} (j : Nat) (columns : List (Column α n)) :
    checkColumns n j (columns.map Column.entries) = .ok columns := by
  induction columns generalizing j with
  | nil => rfl
  | cons c cs ih =>
    rw [List.map_cons, checkColumns, dif_pos c.length_entries, ih]
    rfl

namespace Model

variable {α : Type}

/-! ### What a compiled model keeps -/

/-- A model with one quantity for each parameter and one for each pair of parameters. -/
structure Complete (m : Model α) : Prop where
  parameterCount_pos : 0 < m.parameterCount
  length_slopes : m.slopes.length = m.parameterCount
  length_curvatures : m.curvatures.length = ModelSpec.pairCount m.parameterCount
  length_derivatives : m.derivatives.length = m.parameterCount
  curvatures_eq : m.spec.secondDerivatives = none →
    m.curvatures = slopesAlongRest m.derivatives m.spec.parameters

theorem of_validate {spec : ModelSpec} (h : spec.validate (α := α) = .ok ()) :
    0 < spec.parameters.length ∧
      (∀ l, spec.derivatives = some l → l.length = spec.parameters.length) ∧
      ∀ l, spec.secondDerivatives = some l →
        l.length = ModelSpec.pairCount spec.parameters.length := by
  simp only [ModelSpec.validate] at h
  split at h
  · nomatch h
  · rename_i hempty
    split at h
    · nomatch h
    · split at h
      · nomatch h
      · rename_i hfirst
        split at h
        · nomatch h
        · rename_i hsecond
          refine ⟨List.length_pos_iff.mpr (by simpa using hempty), ?_, ?_⟩
          · intro l hl
            simpa [hl, Option.filter_eq_none_iff] using hfirst
          · intro l hl
            simpa [hl, Option.filter_eq_none_iff] using hsecond

theorem of_compileDerivatives [Scalar α] [DecimalText α] {spec : ModelSpec}
    {value : StoredExpression α} {es : List (StoredExpression α)} {qs : List (Quantity α)}
    (hspec : ∀ l, spec.derivatives = some l → l.length = spec.parameters.length)
    (h : compileDerivatives spec value = .ok (es, qs)) :
    es.length = spec.parameters.length ∧ qs.length = spec.parameters.length := by
  rw [compileDerivatives] at h
  cases hd : spec.derivatives with
  | some sources =>
    rw [hd] at h
    obtain ⟨compiled, hcompiled, h⟩ := exists_of_bind_eq_ok h
    cases h
    have hlength := (mapM_eq_ok_iff.mp hcompiled).length_eq
    rw [List.length_map, ← hlength]
    exact ⟨hspec _ hd, hspec _ hd⟩
  | none =>
    rw [hd] at h
    obtain ⟨compiled, hcompiled, h⟩ := exists_of_bind_eq_ok h
    cases h
    exact ⟨(mapM_eq_ok_iff.mp hcompiled).length_eq.symm, List.length_map _⟩

theorem complete_of_compile [Scalar α] [DecimalText α] {spec : ModelSpec} {m : Model α}
    (h : compile spec = .ok m) : m.Complete := by
  obtain ⟨_, hvalid, h⟩ := exists_of_bind_eq_ok h
  obtain ⟨value, -, h⟩ := exists_of_bind_eq_ok h
  obtain ⟨⟨es, qs⟩, hderivatives, h⟩ := exists_of_bind_eq_ok h
  obtain ⟨cs, hcurvatures, h⟩ := exists_of_bind_eq_ok h
  cases h
  obtain ⟨hpos, hfirst, hsecond⟩ := of_validate hvalid
  obtain ⟨hes, hqs⟩ := of_compileDerivatives hfirst hderivatives
  rw [compileCurvatures] at hcurvatures
  cases hs : spec.secondDerivatives with
  | some sources =>
    rw [hs] at hcurvatures
    obtain ⟨compiled, hcompiled, hcurvatures⟩ := exists_of_bind_eq_ok hcurvatures
    cases hcurvatures
    have hlength := (mapM_eq_ok_iff.mp hcompiled).length_eq
    exact ⟨hpos, hqs, by rw [List.length_map, ← hlength]; exact hsecond _ hs, hes,
      fun hnone => nomatch hs.symm.trans hnone⟩
  | none =>
    rw [hs] at hcurvatures
    cases hcurvatures
    exact ⟨hpos, hqs, length_slopesAlongRest hes, hes, fun _ => rfl⟩

variable {m : Model α}

theorem quantityAt_eq_ok_iff {l : List (Quantity α)} {i : Nat} {q : Quantity α} :
    m.quantityAt l i = .ok q ↔ l[i]? = some q := by
  cases hq : l[i]? with
  | none => simp [quantityAt, hq]
  | some q' => simp [quantityAt, hq]

theorem Complete.exists_slope (hm : m.Complete) {j : Nat} (hj : j < m.parameterCount) :
    ∃ q, m.slopes[j]? = some q :=
  ⟨_, List.getElem?_eq_getElem (hm.length_slopes.symm ▸ hj)⟩

theorem Complete.exists_curvature (hm : m.Complete) {i j : Nat} (hi : i < m.parameterCount)
    (hj : j < m.parameterCount) :
    ∃ q, m.curvatures[triangleIndex i j m.parameterCount]? = some q := by
  have hlt : triangleIndex i j m.parameterCount < m.curvatures.length := by
    rw [hm.length_curvatures]
    rcases Nat.le_total i j with hij | hij
    · exact triangleIndex_lt hij hj
    · rw [triangleIndex_comm]
      exact triangleIndex_lt hij hi
  exact ⟨_, List.getElem?_eq_getElem hlt⟩

/-! ### One column -/

variable [Scalar α] {s : Store α}

/-- The entries of a quantity in the shape of the model's value. -/
def column (m : Model α) (s : Store α) (q : Quantity α) : Except (Error α) (List α) := do
  let shape ← m.outputShape s
  return (← columnOf s shape q).entries

theorem column_eq_ok_iff {q : Quantity α} {l : List α} :
    m.column s q = .ok l ↔
      ∃ shape c, m.outputShape s = .ok shape ∧ columnOf s shape q = .ok c ∧ c.entries = l := by
  constructor
  · intro h
    obtain ⟨shape, hshape, h⟩ := exists_of_bind_eq_ok h
    obtain ⟨c, hc, h⟩ := exists_of_bind_eq_ok h
    exact ⟨shape, c, hshape, hc, Except.ok.inj h⟩
  · rintro ⟨shape, c, hshape, hc, rfl⟩
    exact bind_eq_ok_iff.mpr ⟨shape, hshape, bind_eq_ok_iff.mpr ⟨c, hc, rfl⟩⟩

/-- Only the calculation itself can fail. -/
def FailsInAlgebra {β : Type} (x : Except (Error α) β) : Prop :=
  ∀ e, x = .error e → ∃ cause, e = .algebra cause

omit [Scalar α] in
theorem FailsInAlgebra.bind {β γ : Type} {x : Except (Error α) β} {f : β → Except (Error α) γ}
    (hx : FailsInAlgebra x) (hf : ∀ b, FailsInAlgebra (f b)) : FailsInAlgebra (x >>= f) := by
  intro e h
  cases x with
  | error e' => exact hx e (congrArg Except.error (Except.error.inj h))
  | ok b => exact hf b e h

omit [Scalar α] in
theorem failsInAlgebra_mapError {β : Type} (x : Except (AlgebraError α) β) :
    FailsInAlgebra (x.mapError .algebra) := by
  intro e h
  cases x with
  | error cause => exact ⟨cause, (Except.error.inj h).symm⟩
  | ok b => nomatch h

theorem failsInAlgebra_column (q : Quantity α) : FailsInAlgebra (m.column s q) := by
  have hpure {β : Type} (b : β) : FailsInAlgebra (.ok b : Except (Error α) β) :=
    fun _ h => nomatch h
  have hquantity : FailsInAlgebra (q.eval s) := by
    cases q with
    | value e => exact failsInAlgebra_mapError _
    | slope e name => exact failsInAlgebra_mapError _
  refine .bind (.bind (failsInAlgebra_mapError _) fun _ => hpure _) fun shape => ?_
  refine .bind (.bind hquantity fun v => ?_) fun _ => hpure _
  refine .bind (failsInAlgebra_mapError _) fun a => ?_
  split
  · exact hpure _
  · intro e h
    exact ⟨_, (Except.error.inj h).symm⟩

theorem derivative_eq_column {j : Nat} {q : Quantity α} (hj : j < m.parameterCount)
    (hq : m.slopes[j]? = some q) : m.derivative j s = m.column s q := by
  rw [derivative, checkIndex, if_pos hj, quantityAt_eq_ok_iff.mpr hq]
  rfl

theorem secondDerivative_eq_column {i j : Nat} {q : Quantity α} (hi : i < m.parameterCount)
    (hj : j < m.parameterCount)
    (hq : m.curvatures[triangleIndex i j m.parameterCount]? = some q) :
    m.secondDerivative i j s = m.column s q := by
  rw [secondDerivative, checkIndex, if_pos hi, checkIndex, if_pos hj, quantityAt_eq_ok_iff.mpr hq]
  rfl

theorem derivative_of_le {j : Nat} (hj : m.parameterCount ≤ j) :
    m.derivative j s = .error (.invalidInput (.parameterIndex j m.parameterCount)) := by
  rw [derivative, checkIndex, if_neg (Nat.not_lt.mpr hj)]
  rfl

theorem secondDerivative_of_le {i j : Nat} (hi : m.parameterCount ≤ i) :
    m.secondDerivative i j s = .error (.invalidInput (.parameterIndex i m.parameterCount)) := by
  rw [secondDerivative, checkIndex, if_neg (Nat.not_lt.mpr hi)]
  rfl

theorem secondDerivative_of_lt_of_le {i j : Nat} (hi : i < m.parameterCount)
    (hj : m.parameterCount ≤ j) :
    m.secondDerivative i j s = .error (.invalidInput (.parameterIndex j m.parameterCount)) := by
  rw [secondDerivative, checkIndex, if_pos hi, checkIndex, if_neg (Nat.not_lt.mpr hj)]
  rfl

theorem column_ne_invalidInput {q : Quantity α} {e : InvalidInput} :
    m.column s q ≠ .error (.invalidInput e) := by
  intro h
  obtain ⟨cause, hcause⟩ := failsInAlgebra_column q _ h
  nomatch hcause

theorem secondDerivative_comm {i j : Nat} (hi : i < m.parameterCount) (hj : j < m.parameterCount) :
    m.secondDerivative i j s = m.secondDerivative j i s := by
  rw [secondDerivative, secondDerivative, checkIndex, if_pos hi, checkIndex, if_pos hj,
    triangleIndex_comm]

/-! ### The Jacobian -/

theorem jacobian_eq_ok_iff {J : Matrix α} :
    m.jacobian s = .ok J ↔
      ∃ shape columns, m.outputShape s = .ok shape ∧
        m.slopes.mapM (columnOf s shape) = .ok columns ∧ J = ⟨shape.volume, columns⟩ := by
  constructor
  · intro h
    obtain ⟨shape, hshape, h⟩ := exists_of_bind_eq_ok h
    obtain ⟨columns, hcolumns, h⟩ := exists_of_bind_eq_ok h
    exact ⟨shape, columns, hshape, hcolumns, (Except.ok.inj h).symm⟩
  · rintro ⟨shape, columns, hshape, hcolumns, rfl⟩
    exact bind_eq_ok_iff.mpr ⟨shape, hshape, bind_eq_ok_iff.mpr ⟨columns, hcolumns, rfl⟩⟩

theorem jacobian_succeeds_iff (hm : m.Complete) :
    (∃ J, m.jacobian s = .ok J) ↔ ∀ j < m.parameterCount, ∃ l, m.derivative j s = .ok l := by
  constructor
  · rintro ⟨J, hJ⟩ j hj
    obtain ⟨shape, columns, hshape, hcolumns, rfl⟩ := jacobian_eq_ok_iff.mp hJ
    obtain ⟨q, hq⟩ := hm.exists_slope hj
    obtain ⟨c, hc⟩ := exists_mapM_eq_ok_iff.mp ⟨columns, hcolumns⟩ q (List.mem_of_getElem? hq)
    exact ⟨c.entries, by
      rw [derivative_eq_column hj hq]
      exact column_eq_ok_iff.mpr ⟨shape, c, hshape, hc, rfl⟩⟩
  · intro h
    -- a model has a parameter, so its value has a shape as soon as all derivatives are there
    have hcolumn : ∀ q ∈ m.slopes, ∃ l, m.column s q = .ok l := by
      intro q hq
      obtain ⟨j, hj, rfl⟩ := List.getElem_of_mem hq
      obtain ⟨l, hl⟩ := h j (hm.length_slopes ▸ hj)
      exact ⟨l, derivative_eq_column (hm.length_slopes ▸ hj) (List.getElem?_eq_getElem hj) ▸ hl⟩
    obtain ⟨q, hq⟩ := hm.exists_slope hm.parameterCount_pos
    obtain ⟨l, hl⟩ := hcolumn q (List.mem_of_getElem? hq)
    obtain ⟨shape, -, hshape, -⟩ := column_eq_ok_iff.mp hl
    obtain ⟨columns, hcolumns⟩ : ∃ columns, m.slopes.mapM (columnOf s shape) = .ok columns := by
      refine exists_mapM_eq_ok_iff.mpr fun q hq => ?_
      obtain ⟨l, hl⟩ := hcolumn q hq
      obtain ⟨shape', c, hshape', hc, -⟩ := column_eq_ok_iff.mp hl
      obtain rfl := Except.ok.inj (hshape.symm.trans hshape')
      exact ⟨c, hc⟩
    exact ⟨_, jacobian_eq_ok_iff.mpr ⟨shape, columns, hshape, hcolumns, rfl⟩⟩

/-- The columns of the Jacobian are the derivatives. -/
theorem jacobian_columns (hm : m.Complete) {J : Matrix α} (h : m.jacobian s = .ok J) :
    J.columnCount = m.parameterCount ∧
      ∀ j l, J.columns[j]?.map Column.entries = some l ↔ m.derivative j s = .ok l := by
  obtain ⟨shape, columns, hshape, hcolumns, rfl⟩ := jacobian_eq_ok_iff.mp h
  have hall := mapM_eq_ok_iff.mp hcolumns
  have hcount : columns.length = m.parameterCount := by rw [← hall.length_eq, hm.length_slopes]
  refine ⟨hcount, fun j l => ?_⟩
  by_cases hj : j < m.parameterCount
  · have hjs : j < m.slopes.length := hm.length_slopes.symm ▸ hj
    have hjc : j < columns.length := hcount.symm ▸ hj
    have hcolumn : columnOf s shape m.slopes[j] = .ok columns[j] := hall.get hjs hjc
    have hderivative : m.derivative j s = .ok columns[j].entries := by
      rw [derivative_eq_column hj (List.getElem?_eq_getElem hjs)]
      exact column_eq_ok_iff.mpr ⟨shape, _, hshape, hcolumn, rfl⟩
    rw [hderivative, List.getElem?_eq_getElem hjc]
    constructor
    · intro hl
      rw [← Option.some.inj hl]
    · intro hl
      rw [← Except.ok.inj hl]
      rfl
  · have hnone : columns[j]? = none := List.getElem?_eq_none (hcount.symm ▸ Nat.le_of_not_lt hj)
    rw [hnone, derivative_of_le (Nat.le_of_not_lt hj)]
    exact ⟨(nomatch ·), (nomatch ·)⟩

omit [Scalar α] in
theorem mapM_entries {n : Nat} (g : Quantity α → Except (Error α) (Column α n))
    (l : List (Quantity α)) :
    (l.mapM fun q => do return (← g q).entries) = do return (← l.mapM g).map Column.entries := by
  induction l with
  | nil => rfl
  | cons q l ih =>
    rw [List.mapM_cons, List.mapM_cons, ih]
    cases g q with
    | error e => rfl
    | ok c =>
      cases l.mapM g with
      | error e => rfl
      | ok cs => rfl

/-- Columns that are evaluated one by one are put together to the same Jacobian. -/
theorem jacobianByColumns_eq : m.jacobianByColumns s = m.jacobian s := by
  have hcolumns (shape : Shape) : (mapIndices m.slopes.length fun j => do
      return (← columnOf s shape (← m.quantityAt m.slopes j)).entries) =
        do return (← m.slopes.mapM (columnOf s shape)).map Column.entries := by
    rw [← mapM_entries]
    refine mapIndices_eq_mapM fun j q hq => ?_
    rw [quantityAt_eq_ok_iff.mpr hq]
    rfl
  have hmatrix (shape : Shape) (columns : List (Column α shape.volume)) :
      Matrix.ofColumns shape.volume (columns.map Column.entries) =
        .ok (⟨shape.volume, columns⟩ : Matrix α) := by
    rw [Matrix.ofColumns, Matrix.checkColumns_entries]
    rfl
  apply bind_congr
  intro shape
  calc
    _ = (do return (← m.slopes.mapM (columnOf s shape)).map Column.entries) >>=
          Matrix.ofColumns shape.volume :=
      congrArg (· >>= Matrix.ofColumns shape.volume) (hcolumns shape)
    _ = m.slopes.mapM (columnOf s shape) >>= fun columns =>
          Matrix.ofColumns shape.volume (columns.map Column.entries) := by
      rw [bind_assoc]
      rfl
    _ = _ := bind_congr (hmatrix shape)

/-! ### The Hessian -/

/-- The Hessian is put together from a column for each pair. -/
theorem hessian_eq_ok_iff {H : Cube α} :
    m.hessian s = .ok H ↔
      ∃ shape triangle, m.outputShape s = .ok shape ∧
        List.Forall₂ (fun pair e => e.1 = pair ∧ ∃ q,
          m.curvatures[triangleIndex pair.1 pair.2 m.parameterCount]? = some q ∧
            columnOf s shape q = .ok e.2) (upperPairs m.parameterCount) triangle ∧
        H = Cube.ofTriangle m.parameterCount shape.volume Scalar.zero triangle := by
  have hstep (shape : Shape) (pair : Nat × Nat) (e : (Nat × Nat) × Column α shape.volume) :
      (do
        let q ← m.quantityAt m.curvatures (triangleIndex pair.1 pair.2 m.parameterCount)
        return (pair, ← columnOf s shape q)) = .ok e ↔
      e.1 = pair ∧ ∃ q,
        m.curvatures[triangleIndex pair.1 pair.2 m.parameterCount]? = some q ∧
          columnOf s shape q = .ok e.2 := by
    constructor
    · intro h
      obtain ⟨q, hq, h⟩ := exists_of_bind_eq_ok h
      obtain ⟨c, hc, h⟩ := exists_of_bind_eq_ok h
      obtain rfl := Except.ok.inj h
      exact ⟨rfl, q, quantityAt_eq_ok_iff.mp hq, hc⟩
    · rintro ⟨rfl, q, hq, hc⟩
      exact bind_eq_ok_iff.mpr
        ⟨q, quantityAt_eq_ok_iff.mpr hq, bind_eq_ok_iff.mpr ⟨e.2, hc, rfl⟩⟩
  constructor
  · intro h
    obtain ⟨shape, hshape, h⟩ := exists_of_bind_eq_ok h
    obtain ⟨triangle, htriangle, h⟩ := exists_of_bind_eq_ok h
    refine ⟨shape, triangle, hshape, ?_, (Except.ok.inj h).symm⟩
    exact (mapM_eq_ok_iff.mp htriangle).imp fun pair e he => (hstep shape pair e).mp he
  · rintro ⟨shape, triangle, hshape, htriangle, rfl⟩
    have hmapM := mapM_eq_ok_iff.mpr
      (htriangle.imp fun pair e he => (hstep shape pair e).mpr he)
    exact bind_eq_ok_iff.mpr ⟨shape, hshape, bind_eq_ok_iff.mpr ⟨triangle, hmapM, rfl⟩⟩

/-- The entries of a Hessian, both ways round, are those of the second derivatives. -/
theorem hessian_entries {H : Cube α} (h : m.hessian s = .ok H) {i j : Nat} (hij : i ≤ j)
    (hj : j < m.parameterCount) :
    ∃ l, m.secondDerivative i j s = .ok l ∧ l.length = H.pointCount ∧
      ∀ p, H.entryAt p i j = l[p]? ∧ H.entryAt p j i = l[p]? := by
  obtain ⟨shape, triangle, hshape, hall, rfl⟩ := hessian_eq_ok_iff.mp h
  have hi : i < m.parameterCount := Nat.lt_of_le_of_lt hij hj
  have hup : ∀ e ∈ triangle, e.1.1 ≤ e.1.2 := by
    intro e he
    obtain ⟨pair, hpair, rfl, -⟩ := exists_of_mem_forall₂ hall.flip he
    exact (mem_upperPairs.mp hpair).1
  have hmem : ∃ e ∈ triangle, e.1 = (i, j) := by
    obtain ⟨e, he, hpair, -⟩ := exists_of_mem_forall₂ hall (mem_upperPairs.mpr ⟨hij, hj⟩)
    exact ⟨e, he, hpair⟩
  obtain ⟨e, he, hpair, hlookup⟩ := Cube.exists_lookup hup hij hmem
  obtain ⟨_, -, rfl, q, hq, hcolumn⟩ := exists_of_mem_forall₂ hall.flip he
  rw [hpair] at hq
  refine ⟨e.2.entries, ?_, e.2.length_entries, fun p => ⟨?_, ?_⟩⟩
  · rw [secondDerivative_eq_column hi hj hq]
    exact column_eq_ok_iff.mpr ⟨shape, e.2, hshape, hcolumn, rfl⟩
  · exact Cube.entryAt_ofTriangle hi hj hlookup p
  · exact Cube.entryAt_ofTriangle hj hi (Cube.lookup_comm triangle j i ▸ hlookup) p

theorem hessian_succeeds_iff (hm : m.Complete) :
    (∃ H, m.hessian s = .ok H) ↔
      ∀ i j, i ≤ j → j < m.parameterCount → ∃ l, m.secondDerivative i j s = .ok l := by
  constructor
  · rintro ⟨H, hH⟩ i j hij hj
    obtain ⟨l, hl, -⟩ := hessian_entries hH hij hj
    exact ⟨l, hl⟩
  · intro h
    have hcolumn (i j : Nat) (hij : i ≤ j) (hj : j < m.parameterCount) :
        ∃ shape q c, m.outputShape s = .ok shape ∧
          m.curvatures[triangleIndex i j m.parameterCount]? = some q ∧
            columnOf s shape q = .ok c := by
      have hi : i < m.parameterCount := Nat.lt_of_le_of_lt hij hj
      obtain ⟨q, hq⟩ := hm.exists_curvature hi hj
      obtain ⟨l, hl⟩ := h i j hij hj
      rw [secondDerivative_eq_column hi hj hq] at hl
      obtain ⟨shape, c, hshape, hc, -⟩ := column_eq_ok_iff.mp hl
      exact ⟨shape, q, c, hshape, hq, hc⟩
    obtain ⟨shape, -, -, hshape, -⟩ := hcolumn 0 0 (Nat.le_refl 0) hm.parameterCount_pos
    have hpairs : ∀ pair ∈ upperPairs m.parameterCount,
        ∃ e : (Nat × Nat) × Column α shape.volume, e.1 = pair ∧ ∃ q,
          m.curvatures[triangleIndex pair.1 pair.2 m.parameterCount]? = some q ∧
            columnOf s shape q = .ok e.2 := by
      rintro ⟨i, j⟩ hpair
      obtain ⟨hij, hj⟩ := mem_upperPairs.mp hpair
      obtain ⟨shape', q, c, hshape', hq, hc⟩ := hcolumn i j hij hj
      obtain rfl := Except.ok.inj (hshape.symm.trans hshape')
      exact ⟨⟨(i, j), c⟩, rfl, q, hq, hc⟩
    obtain ⟨triangle, htriangle⟩ := exists_forall₂ hpairs
    exact ⟨_, hessian_eq_ok_iff.mpr ⟨shape, triangle, hshape, htriangle, rfl⟩⟩

/-! ### All tables -/

/-- The tables of a model at a store: positions behind the last parameter are rejected and nothing
else is; the other positions have their quantity; the Jacobian and the Hessian are there exactly
when all their derivatives are, and consist of them. -/
structure Tabulates (m : Model α) (s : Store α) : Prop where
  derivative_rejects (j : Nat) (e : InvalidInput) :
    m.derivative j s = .error (.invalidInput e) ↔
      m.parameterCount ≤ j ∧ e = .parameterIndex j m.parameterCount
  secondDerivative_rejects (i j : Nat) (e : InvalidInput) :
    m.secondDerivative i j s = .error (.invalidInput e) ↔
      m.parameterCount ≤ i ∧ e = .parameterIndex i m.parameterCount ∨
        i < m.parameterCount ∧ m.parameterCount ≤ j ∧ e = .parameterIndex j m.parameterCount
  slopes_inRange (j : Nat) : j < m.parameterCount → ∃ q, m.slopes[j]? = some q
  /-- What is taken off the full rows is not more than they hold. -/
  triangle_inRange (i j : Nat) : i < m.parameterCount → j < m.parameterCount →
    min i j * (min i j + 1) / 2 ≤ min i j * m.parameterCount
  curvatures_inRange (i j : Nat) : i < m.parameterCount → j < m.parameterCount →
    ∃ q, m.curvatures[triangleIndex i j m.parameterCount]? = some q
  jacobian_succeeds :
    (∃ J, m.jacobian s = .ok J) ↔ ∀ j < m.parameterCount, ∃ l, m.derivative j s = .ok l
  jacobian_columns (J : Matrix α) : m.jacobian s = .ok J →
    J.columnCount = m.parameterCount ∧
      ∀ j l, J.columns[j]?.map Column.entries = some l ↔ m.derivative j s = .ok l
  jacobianByColumns_same (J : Matrix α) :
    m.jacobianByColumns s = .ok J ↔ m.jacobian s = .ok J
  hessian_succeeds :
    (∃ H, m.hessian s = .ok H) ↔
      ∀ i j, i ≤ j → j < m.parameterCount → ∃ l, m.secondDerivative i j s = .ok l
  hessian_entries (H : Cube α) : m.hessian s = .ok H →
    H.size = m.parameterCount ∧ ∀ i j, i ≤ j → j < m.parameterCount →
      ∃ l, m.secondDerivative i j s = .ok l ∧ m.secondDerivative j i s = .ok l ∧
        l.length = H.pointCount ∧ ∀ p, H.entryAt p i j = l[p]? ∧ H.entryAt p j i = l[p]?
  /-- Without supplied formulas a second derivative is the slope of the first one's formula. -/
  curvatures_symbolic : m.spec.secondDerivatives = none →
    ∀ i j, i ≤ j → j < m.parameterCount → ∃ e name, m.derivatives[i]? = some e ∧
      m.spec.parameters[j]? = some name ∧
        m.curvatures[triangleIndex i j m.parameterCount]? = some (.slope e name)

theorem derivative_eq_error_iff (hm : m.Complete) {j : Nat} {e : InvalidInput} :
    m.derivative j s = .error (.invalidInput e) ↔
      m.parameterCount ≤ j ∧ e = .parameterIndex j m.parameterCount := by
  rcases Nat.lt_or_ge j m.parameterCount with hj | hj
  · obtain ⟨q, hq⟩ := hm.exists_slope hj
    rw [derivative_eq_column hj hq]
    exact ⟨fun h => absurd h column_ne_invalidInput, fun h => absurd hj (Nat.not_lt.mpr h.1)⟩
  · rw [derivative_of_le hj]
    simp [hj, eq_comm]

theorem secondDerivative_eq_error_iff (hm : m.Complete) {i j : Nat} {e : InvalidInput} :
    m.secondDerivative i j s = .error (.invalidInput e) ↔
      m.parameterCount ≤ i ∧ e = .parameterIndex i m.parameterCount ∨
        i < m.parameterCount ∧ m.parameterCount ≤ j ∧ e = .parameterIndex j m.parameterCount := by
  rcases Nat.lt_or_ge i m.parameterCount with hi | hi
  · rcases Nat.lt_or_ge j m.parameterCount with hj | hj
    · obtain ⟨q, hq⟩ := hm.exists_curvature hi hj
      rw [secondDerivative_eq_column hi hj hq]
      constructor
      · exact fun h => absurd h column_ne_invalidInput
      · rintro (⟨hle, -⟩ | ⟨-, hle, -⟩)
        · exact absurd hi (Nat.not_lt.mpr hle)
        · exact absurd hj (Nat.not_lt.mpr hle)
    · rw [secondDerivative_of_lt_of_le hi hj]
      simp [hi, Nat.not_le.mpr hi, hj, eq_comm]
  · rw [secondDerivative_of_le hi]
    simp [hi, Nat.not_lt.mpr hi, eq_comm]

theorem spec_of_compile [DecimalText α] {spec : ModelSpec} (h : compile spec = .ok m) :
    m.spec = spec := by
  obtain ⟨_, -, h⟩ := exists_of_bind_eq_ok h
  obtain ⟨value, -, h⟩ := exists_of_bind_eq_ok h
  obtain ⟨⟨es, qs⟩, -, h⟩ := exists_of_bind_eq_ok h
  obtain ⟨cs, -, h⟩ := exists_of_bind_eq_ok h
  cases h
  rfl

theorem Complete.tabulates (hm : m.Complete) (s : Store α) : m.Tabulates s where
  derivative_rejects _ _ := derivative_eq_error_iff hm
  secondDerivative_rejects _ _ _ := secondDerivative_eq_error_iff hm
  slopes_inRange _ hj := hm.exists_slope hj
  triangle_inRange _ _ hi _ :=
    triangle_le (Nat.le_trans (Nat.min_le_left _ _) (Nat.le_of_lt hi))
  curvatures_inRange _ _ hi hj := hm.exists_curvature hi hj
  jacobian_succeeds := jacobian_succeeds_iff hm
  jacobian_columns _ hJ := jacobian_columns hm hJ
  jacobianByColumns_same _ := by rw [jacobianByColumns_eq]
  hessian_succeeds := hessian_succeeds_iff hm
  hessian_entries H hH := by
    refine ⟨?_, fun i j hij hj => ?_⟩
    · obtain ⟨shape, triangle, -, -, rfl⟩ := hessian_eq_ok_iff.mp hH
      simp [Cube.size, Cube.ofTriangle]
    · obtain ⟨l, hl, hlength, hentries⟩ := hessian_entries hH hij hj
      have hi : i < m.parameterCount := Nat.lt_of_le_of_lt hij hj
      exact ⟨l, hl, secondDerivative_comm hi hj ▸ hl, hlength, hentries⟩
  curvatures_symbolic hnone i j hij hj := by
    have hi : i < m.derivatives.length := by
      rw [hm.length_derivatives]
      omega
    have he := List.getElem?_eq_getElem hi
    have hname : m.spec.parameters[j]? = some m.spec.parameters[j] := List.getElem?_eq_getElem hj
    refine ⟨_, _, he, hname, ?_⟩
    rw [hm.curvatures_eq hnone]
    exact getElem?_slopesAlongRest hij he hname

/-- The Jacobian and the Hessian of a compiled model are assembled exactly from its derivatives. -/
theorem tabulates_of_compile [DecimalText α] {spec : ModelSpec} (h : compile spec = .ok m) :
    m.spec = spec ∧ ∀ s, m.Tabulates s :=
  ⟨spec_of_compile h, (complete_of_compile h).tabulates⟩

theorem tabulates_of_compile_product :
    ∃ m : Model Double, compile ⟨"x*y", ["x", "y"], [], none, none⟩ = .ok m ∧
      m.parameterCount = 2 ∧ m.Tabulates (initialStore m.spec) := by
  obtain ⟨m, hm⟩ : ∃ m : Model Double, compile ⟨"x*y", ["x", "y"], [], none, none⟩ = .ok m :=
    ⟨_, rfl⟩
  obtain ⟨hspec, htables⟩ := tabulates_of_compile hm
  have hcount : m.parameterCount = 2 := by
    rw [parameterCount, hspec]
    rfl
  exact ⟨m, hm, hcount, htables _⟩

end Model

end FormulaCalculus
