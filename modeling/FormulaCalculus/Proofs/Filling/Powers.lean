import FormulaCalculus.Proofs.Filling.Constants

/-!
Powers and angles of constants compared with those of their real values. A power of a negative
number with an exponent that is not whole goes through the complex logarithm; it comes back to the
real line at zero only, and there the real power is zero as well.
-/

namespace FormulaCalculus

open Scalar (isFinite isInfinite isNaN)
open LawfulArithmetic LawfulPower

variable {α : Type} [Scalar α] [LawfulArithmetic α]

namespace ComplexNumber

theorem isFinite_of_beq_zero {x : α} (h : x == Scalar.zero) : isFinite x :=
  isFinite_of_beq _ _ (beq_symm _ _ h) isFinite_zero

variable [LawfulPower α]

/-- A point in polar form is real only if its angle is finite. -/
theorem isFinite_of_isReal_polar {r t : α} (h : (polar r t).isReal = true) : isFinite t := by
  have him : isFinite (r * Scalar.sin t) := isFinite_of_beq_zero h
  exact isFinite_of_sin _ (isFinite_of_mul _ _ him).2

/-- An exponential whose angle is not finite is real only where it has gone to zero. -/
theorem exp_of_not_isFinite {z : ComplexNumber α} (hangle : isFinite z.im = false)
    (hreal : z.exp.isReal = true) : z.exp = zero ∧ isInfinite z.re = true := by
  have hself : ¬ z.isReal = true := by
    intro h
    rw [isFinite_of_beq_zero h] at hangle
    exact Bool.noConfusion hangle
  have hpolar {r : α} : ¬ (polar r z.im).isReal = true := by
    intro h
    rw [isFinite_of_isReal_polar h] at hangle
    exact Bool.noConfusion hangle
  have hundefined : ¬ isReal (⟨z.re, Scalar.nan⟩ : ComplexNumber α) = true := by
    intro h
    have hnan := isFinite_of_beq_zero (α := α) h
    rw [not_isFinite_of_isNaN isNaN_nan] at hnan
    exact Bool.noConfusion hnan
  unfold exp at hreal ⊢
  split_ifs at hreal ⊢ with hinfinite hnegative hfinite hzero hinfinite' hnan hboth
  · exact absurd hreal hpolar
  · exact ⟨rfl, hinfinite⟩
  · exact absurd hreal hself
  · exact absurd hreal hundefined
  · exact absurd hreal hself
  · exact absurd hreal hpolar
  · exact absurd hreal hself
  · exact absurd hreal hpolar

theorem meets_powValue {z w : ComplexNumber α} (hz : z.isReal = true) (hw : w.isReal = true) :
    (Number.powValue z w).Meets (Scalar.pow z.re w.re) := by
  unfold Number.powValue
  rw [hz, hw, Bool.true_and, Bool.true_and]
  split_ifs with hdomain
  · exact (gives_self _).meets
  obtain ⟨hnegative, hwhole⟩ := Bool.or_eq_false_iff.mp (Bool.eq_false_iff.mpr hdomain)
  unfold ComplexNumber.pow
  split_ifs with hzero
  · have hexponent := (Bool.and_eq_true_iff.mp hzero).1
    exact fun _ => gives_of_beq (pow_zero _ _ hexponent)
  intro hk hreal _
  have hexponent : (w.re == Scalar.zero) = false := by
    have hparts : (w.re == Scalar.zero && w.im == Scalar.zero) = false :=
      Bool.eq_false_iff.mpr hzero
    rwa [show (w.im == Scalar.zero) = true from hw, Bool.and_true] at hparts
  obtain ⟨hoperand, hvalue⟩ := pow_negative _ _ hnegative hwhole hexponent hk
  -- The angle is the sum of two products, one of them with what is not finite.
  have hangle : isFinite (w * z.log).im = false := by
    refine Bool.eq_false_iff.mpr fun hfinite => ?_
    obtain ⟨hre, him⟩ := isFinite_of_add _ _ hfinite
    have hw' := (isFinite_of_mul _ _ hre).1
    have hz' := isFinite_of_hypot _ _ (isFinite_of_log _ (isFinite_of_mul _ _ him).2)
    rcases hoperand with h | h
    · rw [hz'] at h
      exact Bool.noConfusion h
    · rw [hw'] at h
      exact Bool.noConfusion h
  obtain ⟨hexp, hinfinite⟩ := exp_of_not_isFinite hangle hreal
  rw [hexp]
  rcases hvalue with hpow | hbase
  · exact beq_symm _ _ hpow
  · -- The logarithm of minus one is zero, and its product with an infinite exponent undefined.
    exfalso
    have hbaseFinite : isFinite z.re :=
      isFinite_of_beq _ _ (beq_symm _ _ hbase) isFinite_negOne
    have hexponentInfinite : isFinite w.re = false := by
      rcases hoperand with h | h
      · rw [hbaseFinite] at h
        exact Bool.noConfusion h
      · exact h
    have hlog : z.log.re == Scalar.zero := log_one _ (hypot_negOne _ _ hbase hz)
    have hnan : isNaN (w * z.log).re := isNaN_sub _ _ (isNaN_mul _ _ hexponentInfinite hlog)
    rw [not_isInfinite_of_isNaN _ hnan] at hinfinite
    exact Bool.noConfusion hinfinite

end ComplexNumber

open ComplexNumber (gives_of_beq gives_nan isReal_ofReal meets_powValue)

namespace Constant

variable {c d : Constant α} {m n : Number α} {s : Shape}

omit [LawfulArithmetic α] in
theorem beq_zero_of_hasZeroValue [LawfulScalar α] (h : c.hasZeroValue = true) :
    c.real == Scalar.zero := by
  cases c with
  | zero r => exact LawfulScalar.zero_beq_zero
  | number n => exact (Bool.and_eq_true_iff.mp h).1
  | _ => exact Bool.noConfusion h

variable [LawfulPower α]

theorem gives_powOfZeroIn {x : α} (hx : x == Scalar.zero) :
    (d.powOfZeroIn s).value.Gives (Scalar.pow x d.real) := by
  have hone (hd : d.real == Scalar.zero) : Scalar.pow x d.real == Scalar.one :=
    pow_zero _ _ hd
  cases d with
  | zero r => exact gives_of_beq (hone LawfulScalar.zero_beq_zero)
  | unity r =>
    have hpow := pow_one x (ComplexNumber.isFinite_of_beq_zero hx)
    exact gives_of_beq (beq_trans _ _ _ hpow hx)
  | negUnity r | nan r => exact gives_nan _
  | number n =>
    simp only [powOfZeroIn]
    split_ifs with hpositive hzero
    · exact gives_of_beq (zero_pow _ _ hx hpositive)
    · exact gives_of_beq (hone (Bool.and_eq_true_iff.mp hzero).1)
    · exact gives_nan _

theorem meets_pow (hm : m.value.isReal = true) (hn : n.value.isReal = true) :
    (m.pow n s).value.Meets (Scalar.pow m.value.re n.value.re) :=
  ComplexNumber.Meets.ofNumber (meets_powValue hm hn)

theorem meets_powIn (hc : c.IsReal) (hd : d.IsReal) :
    (c.powIn s d).value.Meets (Scalar.pow c.real d.real) := by
  unfold powIn
  split_ifs with hvalue
  · exact (gives_powOfZeroIn (beq_zero_of_hasZeroValue hvalue)).meets
  have hzero : (unity s : Constant α).value.Meets (Scalar.pow c.real Scalar.zero) := fun _ =>
    gives_of_beq (pow_zero _ _ LawfulScalar.zero_beq_zero)
  have hone (y : α) : (unity s : Constant α).value.Meets (Scalar.pow Scalar.one y) := fun _ =>
    gives_of_beq (one_pow y)
  have hnegOne : isFinite (-Scalar.one : α) := isFinite_negOne
  cases c with
  | zero r => exact absurd rfl hvalue
  | unity r =>
    cases d with
    | nan t => exact meets_nan s _
    | zero t | unity t | negUnity t | number n => exact hone _
  | negUnity r =>
    cases d with
    | nan t => exact meets_nan s _
    | zero t => exact hzero
    | unity t => exact fun _ => gives_of_beq (pow_one _ hnegOne)
    | negUnity t =>
      -- Minus one is its own inverse.
      have hinverse : Scalar.one / -Scalar.one == -(Scalar.one : α) := div_negOne _ isFinite_one
      have hfinite := isFinite_of_beq _ _ (beq_symm _ _ hinverse) hnegOne
      have hpow := beq_trans _ _ _ (pow_negOne _ hfinite) hinverse
      exact fun _ => gives_of_beq hpow
    | number n => exact meets_pow (isReal_ofReal _) hd
  | nan r =>
    cases d with
    | zero t => exact hzero
    | _ => exact meets_nan s _
  | number m =>
    cases d with
    | nan t => exact meets_nan s _
    | zero t => exact hzero
    | unity t =>
      refine ComplexNumber.Gives.meets (ComplexNumber.Gives.ofNumber ?_)
      exact fun _ hfinite => beq_symm _ _ (pow_one _ hfinite)
    | negUnity t =>
      refine ComplexNumber.Gives.meets ?_
      exact (gives_combine (isReal_ofReal _) hc).trans fun h => beq_symm _ _ (pow_negOne _ h)
    | number n => exact meets_pow hc hd

omit [LawfulArithmetic α] [LawfulPower α] in
theorem coordinate_of_isReal (hc : c.IsReal) : c.coordinate = .ok c.real := by
  unfold coordinate
  rw [asReal?_of_isReal hc]
  rfl

omit [LawfulPower α] in
theorem meets_atan2In (hc : c.IsReal) (hd : d.IsReal) :
    ∃ e, c.atan2In s d = .ok e ∧ e.value.Meets (Scalar.atan2 c.real d.real) := by
  have hangle : (calculated (Scalar.atan2 c.real d.real) s).value.Meets
      (Scalar.atan2 c.real d.real) := meets_calculated (beq_refl _)
  have hplane : (do
      let y ← c.coordinate
      let x ← d.coordinate
      return calculated (Scalar.atan2 y x) s) =
        (.ok (calculated (Scalar.atan2 c.real d.real) s) : Except (AlgebraError α) _) := by
    rw [coordinate_of_isReal hc, coordinate_of_isReal hd]
    rfl
  cases c with
  | nan r => exact ⟨nan s, rfl, meets_nan s _⟩
  | _ =>
    cases d with
    | nan t => exact ⟨nan s, rfl, meets_nan s _⟩
    | _ => exact ⟨_, hplane, hangle⟩

end Constant

/-- A function of two real constants gives a constant. If that is real and finite, and the function
of their real values is finite, both are equal. -/
theorem BinaryFn.meets_onConstants [LawfulPower α] (f : BinaryFn) {c d : Constant α}
    (hc : c.IsReal) (hd : d.IsReal) {s : Shape} (hs : c.shape.join? d.shape = some s) :
    ∃ e, f.onConstants c d = .ok e ∧ e.value.Meets (f.real c.real d.real) := by
  unfold onConstants
  rw [Tensor.joinShapes_eq_ok.mpr hs]
  cases f with
  | add => exact ⟨_, rfl, Constant.meets_addIn hc hd⟩
  | sub => exact ⟨_, rfl, Constant.meets_subIn hc hd⟩
  | mul => exact ⟨_, rfl, Constant.meets_mulIn hc hd⟩
  | div => exact ⟨_, rfl, Constant.meets_divIn hc hd⟩
  | pow => exact ⟨_, rfl, Constant.meets_powIn hc hd⟩
  | atan2 => exact Constant.meets_atan2In hc hd

end FormulaCalculus
