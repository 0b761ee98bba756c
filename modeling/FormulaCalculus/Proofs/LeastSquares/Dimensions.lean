import FormulaCalculus.Proofs.LeastSquares.Memory
import FormulaCalculus.Proofs.Model.Columns

/-!
The dimensions of a fit. The number of residuals is checked when a fit is created and whenever the
residuals are evaluated, but not for the Jacobian: it has a row for each value that the model has
once every parameter holds one number, and that need not be as many as there were at first.
-/

namespace FormulaCalculus

open Stateful (answer leaves)
open Shape (volume)

namespace Node

variable {α β : Type} {a : Node α β}

theorem leafShapes_congr {shapeOf shapeOf' : β → Shape}
    (h : ∀ p ∈ a.bindings, shapeOf p.2 = shapeOf' p.2) :
    a.leafShapes shapeOf = a.leafShapes shapeOf' := by
  induction a with
  | constant _ | tensor _ => rfl
  | variableLeaf name b =>
    have hb := h (name, b) List.mem_cons_self
    rw [leafShapes, leafShapes, hb]
  | unary f a ih => exact ih h
  | binary f a b iha ihb =>
    obtain ⟨hleft, hright⟩ := List.forall_mem_append.mp h
    rw [leafShapes, leafShapes, iha hleft, ihb hright]

end Node

namespace Model

variable {α : Type} [Scalar α] {m : Model α} {s t : Store α} {values : List α} {shape : Shape}
  {name : String}

/-- The shape of a variable once each parameter holds one number. -/
def writtenShape (m : Model α) (s : Store α) (name : String) : Shape :=
  if m.spec.parameters.contains name then Shape.scalar else (s.read name).shape

theorem shape_read_written {params : List α} (hm : m.spec.parameters.Nodup)
    (hparams : params.length = m.parameterCount) (s : Store α) (name : String) :
    ((leaves (m.setParameterValues params) s).read name).shape = m.writtenShape s name := by
  obtain ⟨hkeeps, hgives⟩ := get?_setParameterValues hparams s
  unfold writtenShape
  split_ifs with hname
  · obtain ⟨k, hk, hget⟩ := List.getElem_of_mem (List.contains_iff_mem.mp hname)
    have hk' : k < params.length := hparams ▸ hk
    have hx : params[k]? = some params[k] := List.getElem?_eq_getElem hk'
    have hvalue := hgives hm k name _ (List.getElem?_eq_some_iff.mpr ⟨hk, hget⟩) hx
    rw [Store.read, hvalue]
    rfl
  · have hvalue := hkeeps name fun hmem => hname (List.contains_iff_mem.mpr hmem)
    rw [Store.read, hvalue]
    rfl

/-- Where there is an output shape, only a value that is not real has no entries. -/
theorem values_eq_error {e : Error α} (h : m.values s = .error e)
    (hshape : m.outputShape s = .ok shape) : ∃ d, e = .algebra d := by
  obtain ⟨v, hv, -⟩ := exists_of_bind_eq_ok hshape
  rcases bind_eq_error h with h | ⟨_, -, h⟩
  · rcases bind_eq_error h with h | ⟨_, -, h⟩
    · nomatch hv.symm.trans h
    · obtain ⟨d, -, rfl⟩ := exists_of_mapError_eq_error h
      exact ⟨d, rfl⟩
  · nomatch h

end Model

namespace Fit

variable {α : Type} [Scalar α] {m : Model α} {f : Fit α} {data params r : List α}
  {s s₀ t : Store α} {J : Matrix α} {shape : Shape}

theorem create_eq_ok_iff : create m data s = .ok f ↔
    ∃ shape, m.outputShape s = .ok shape ∧ volume shape = data.length ∧ f = ⟨m, data⟩ := by
  constructor
  · intro h
    obtain ⟨shape, hshape, h⟩ := exists_of_bind_eq_ok h
    split_ifs at h with hlength
    exact ⟨shape, hshape, hlength, (Except.ok.inj h).symm⟩
  · rintro ⟨shape, hshape, hlength, rfl⟩
    exact bind_eq_ok_iff.mpr ⟨shape, hshape, if_pos hlength⟩

omit [Scalar α] in
/-- What is answered behind the parameters is read off the store that they are written to. -/
theorem written_of_answer {β : Type} {g : Store α → Except (Error α) β} {b : β}
    (h : answer (m.setParameterValues params >>= fun _ => Stateful.reading g) s = .ok b) :
    params.length = m.parameterCount ∧ g (leaves (m.setParameterValues params) s) = .ok b := by
  by_cases hparams : params.length = m.parameterCount
  · rw [(reading_written hparams g s).1] at h
    exact ⟨hparams, h⟩
  · rw [(reading_refused hparams g s).1] at h
    nomatch h

/-- Residuals are as many as the values and as many as the observations. -/
theorem length_residuals (h : m.residuals data t = .ok r) (hshape : m.outputShape t = .ok shape) :
    r.length = volume shape ∧ volume shape = data.length := by
  obtain ⟨values, hvalues, h⟩ := exists_of_bind_eq_ok h
  have hlength := Model.length_values hvalues hshape
  split_ifs at h with hdata
  obtain rfl := Except.ok.inj h
  rw [List.length_zipWith, hlength, ← hdata, hlength, Nat.min_self]
  exact ⟨rfl, rfl⟩

/-- Residuals are refused where the values are not as many as the observations. -/
theorem residuals_refused (hshape : m.outputShape t = .ok shape)
    (hdata : volume shape ≠ data.length) :
    m.residuals data t =
        .error (.dimensionMismatch (.observedValues (volume shape) data.length)) ∨
      ∃ e, m.residuals data t = .error (.algebra e) := by
  cases hvalues : m.values t with
  | ok values =>
    have hlength := Model.length_values hvalues hshape
    left
    rw [← hlength] at hdata ⊢
    unfold Model.residuals
    rw [hvalues]
    exact if_neg hdata
  | error e =>
    obtain ⟨d, rfl⟩ := Model.values_eq_error hvalues hshape
    right
    refine ⟨d, ?_⟩
    unfold Model.residuals
    rw [hvalues]
    rfl

/-- A Jacobian has a column for each parameter and a row for each value that the model has once
every parameter holds one number, whatever the numbers are. Residuals at the same parameters, if
there are any, are as many as its rows and as many as the problem declares; where the rows are not
as many as that, the Jacobian is not refused, but the residuals are. The rows are as many as the
problem declares if the variables keep the shapes that they had when the fit was created. -/
theorem dimensions_of_compile [DecimalText α] {spec : ModelSpec} (hm : Model.compile spec = .ok m)
    (hf : create m data s₀ = .ok f) (hJ : answer (f.toProblem.jacobian params) s = .ok J) :
    J.columnCount = f.toProblem.parameterCount ∧
      (∃ shape, m.value.root.leafShape? (m.writtenShape s) = some shape ∧
        J.rowCount = volume shape) ∧
      (∀ r, answer (f.toProblem.eval params) s = .ok r →
        r.length = J.rowCount ∧ J.rowCount = f.toProblem.residualCount) ∧
      (J.rowCount ≠ f.toProblem.residualCount →
        answer (f.toProblem.eval params) s = .error (.dimensionMismatch
            (.observedValues J.rowCount f.toProblem.residualCount)) ∨
          ∃ e, answer (f.toProblem.eval params) s = .error (.algebra e)) ∧
      ((∀ name ∈ spec.variableNames, m.writtenShape s name = (s₀.read name).shape) →
        J.rowCount = f.toProblem.residualCount) := by
  obtain ⟨shape₀, hshape₀, hlength₀, rfl⟩ := create_eq_ok_iff.mp hf
  -- both answers are calculated at the store that the parameters are written to
  obtain ⟨hparams, hJ⟩ := written_of_answer hJ
  obtain ⟨shape, columns, hshape, hcolumns, rfl⟩ := Model.jacobian_eq_ok_iff.mp hJ
  have heval : answer ((⟨m, data⟩ : Fit α).toProblem.eval params) s =
      m.residuals data (leaves (m.setParameterValues params) s) :=
    (reading_written hparams (m.residuals data) s).1
  have hspec := Model.spec_of_compile hm
  have hnodup : m.spec.parameters.Nodup := by
    obtain ⟨_, hvalid, -⟩ := exists_of_bind_eq_ok hm
    rw [hspec]
    exact (List.nodup_append.mp (ModelSpec.nodup_of_validate hvalid)).1
  have hleaves : m.value.root.leafShape? (m.writtenShape s) = some shape := by
    have hread : (fun name => ((leaves (m.setParameterValues params) s).read name).shape) =
        m.writtenShape s := funext (Model.shape_read_written hnodup hparams s)
    rw [← hread]
    exact Model.leafShape?_of_outputShape hshape
  refine ⟨?_, ⟨shape, hleaves, rfl⟩, ?_, ?_, ?_⟩
  · have hcount := (mapM_eq_ok_iff.mp hcolumns).length_eq
    exact hcount.symm.trans (Model.complete_of_compile hm).length_slopes
  · intro r hr
    rw [heval] at hr
    exact length_residuals hr hshape
  · intro hrows
    rw [heval]
    exact residuals_refused hshape hrows
  · intro hkept
    -- the shape depends on the declared variables only, and these have kept theirs
    have hsame : m.value.root.leafShape? (m.writtenShape s) =
        m.value.root.leafShape? fun name => (s₀.read name).shape := by
      apply congrArg Shape.joinAll?
      apply Node.leafShapes_congr
      intro p hp
      have hdeclared := Model.readsDeclared_of_compile hm m.value List.mem_cons_self p hp
      rw [hdeclared.1]
      exact hkept p.1 hdeclared.2
    rw [hleaves, Model.leafShape?_of_outputShape hshape₀] at hsame
    obtain rfl := Option.some.inj hsame
    exact hlength₀

/-- The fit of `x*c` to two observations for a constant `c` with two entries. -/
theorem dimensions_of_compile_product :
    ∃ (m : Model Double) (f : Fit Double) (J : Matrix Double) (s : Store Double),
      Model.compile ⟨"x*c", ["x"], ["c"], none, none⟩ = .ok m ∧
      create m [Scalar.one, Scalar.two] s = .ok f ∧
      answer (f.toProblem.jacobian [Scalar.two]) s = .ok J ∧
      J.columnCount = f.toProblem.parameterCount ∧ J.rowCount = f.toProblem.residualCount := by
  obtain ⟨m, hm⟩ : ∃ m : Model Double,
      Model.compile ⟨"x*c", ["x"], ["c"], none, none⟩ = .ok m := ⟨_, rfl⟩
  let c : Tensor Double := .replicate [2] Scalar.one
  let x : Tensor Double := .singleton Scalar.zero
  let s : Store Double := (Store.empty.set "c" c).set "x" x
  obtain ⟨f, J, hf, hJ, hkept⟩ : ∃ f J, create m [Scalar.one, Scalar.two] s = .ok f ∧
      answer (f.toProblem.jacobian [Scalar.two]) s = .ok J ∧
      ∀ name ∈ ["x", "c"], m.writtenShape s name = (s.read name).shape := by
    obtain rfl := Except.ok.inj hm
    exact ⟨_, _, rfl, rfl, by decide⟩
  obtain ⟨hcolumns, -, -, -, hrows⟩ := dimensions_of_compile hm hf hJ
  exact ⟨m, f, J, s, hm, hf, hJ, hcolumns, hrows hkept⟩

/-- A fit of `x` that is created while `x` has three entries: the Jacobian is answered with one row,
though the problem declares three residuals, and the residuals are refused. -/
theorem jacobian_of_shrunk_parameter :
    ∃ (m : Model Double) (f : Fit Double) (J : Matrix Double) (s : Store Double),
      Model.compile ⟨"x", ["x"], [], none, none⟩ = .ok m ∧
      answer (m.setParameter "x" (.ofList [Scalar.one, Scalar.two, Scalar.four]))
        (Model.initialStore m.spec) = .ok () ∧
      leaves (m.setParameter "x" (.ofList [Scalar.one, Scalar.two, Scalar.four]))
        (Model.initialStore m.spec) = s ∧
      create m [Scalar.one, Scalar.two, Scalar.four] s = .ok f ∧
      answer (f.toProblem.jacobian [Scalar.two]) s = .ok J ∧
      J.rowCount = 1 ∧ f.toProblem.residualCount = 3 ∧
      answer (f.toProblem.eval [Scalar.two]) s =
        .error (.dimensionMismatch (.observedValues 1 3)) :=
  ⟨_, _, _, _, rfl, rfl, rfl, rfl, rfl, rfl, rfl, rfl⟩

end Fit

end FormulaCalculus
