import FormulaCalculus.Proofs.Algebra.Stretching
import FormulaCalculus.Proofs.Scalar.Arithmetic

/-!
Sums, differences, products and quotients of constants compared with those of their real values.
Where the function of two real constants is a real and finite number, and so is the function of
their real values, both are equal: no short cut for a symbol changes a finite result.
-/

namespace FormulaCalculus

open Scalar (isFinite isInfinite isNaN)
open LawfulArithmetic

variable {α : Type} [Scalar α]

/-- The real part of the constant's value. -/
def Constant.real (c : Constant α) : α := c.value.re

/-- Whether the constant has no imaginary part. -/
def Constant.IsReal (c : Constant α) : Prop := c.value.isReal = true

/-- A number stays itself or becomes the symbol of its value. -/
theorem Number.ofNumber_cases (n : Number α) :
    Constant.ofNumber n = .number n ∨
      (n.value.isReal = true ∧ n.value.re == (Constant.ofNumber n).real) ∨
      (n.value.isReal = true ∧ isNaN n.value.re ∧ Constant.ofNumber n = .nan n.shape) := by
  unfold Constant.ofNumber
  split_ifs with hflag hzero hone hnegOne hnan
  · exact Or.inl rfl
  all_goals
    simp only [Bool.or_eq_true, Bool.not_eq_true', not_or, Bool.not_eq_false] at hflag
  · exact Or.inr (Or.inl ⟨hflag.2, hzero⟩)
  · exact Or.inr (Or.inl ⟨hflag.2, hone⟩)
  · exact Or.inr (Or.inl ⟨hflag.2, hnegOne⟩)
  · exact Or.inr (Or.inr ⟨hflag.2, hnan, rfl⟩)
  · exact Or.inl rfl

namespace ComplexNumber

/-- Whether a number equals another one unless it is not real or not finite. -/
def Gives (z : ComplexNumber α) (k : α) : Prop := z.isReal → isFinite z.re → z.re == k

/-- Whether two numbers are equal if they are real and finite. -/
def Meets (z : ComplexNumber α) (k : α) : Prop := isFinite k → z.Gives k

theorem Gives.meets {z : ComplexNumber α} {k : α} (h : z.Gives k) : z.Meets k := fun _ => h

variable [LawfulArithmetic α] {z w : ComplexNumber α} {x k l : α}

omit [LawfulArithmetic α] in
theorem gives_ofReal (h : isFinite x → x == k) : (ofReal x).Gives k := fun _ hfinite => h hfinite

theorem gives_self (x : α) : (ofReal x).Gives x := gives_ofReal (beq_refl x)

theorem gives_of_beq (h : k == x) : (ofReal x).Gives k := gives_ofReal fun _ => beq_symm _ _ h

/-- The undefined value is not finite. -/
theorem gives_nan (k : α) : (ofReal (Scalar.nan : α)).Gives k := by
  refine gives_ofReal fun hfinite => ?_
  rw [not_isFinite_of_isNaN isNaN_nan] at hfinite
  exact Bool.noConfusion hfinite

theorem Gives.trans (h : z.Gives k) (hkl : isFinite k → k == l) : z.Gives l := by
  intro hreal hfinite
  have hk := h hreal hfinite
  exact beq_trans _ _ _ hk (hkl (isFinite_of_beq _ _ hk hfinite))

theorem Gives.ofNumber {n : Number α} (h : n.value.Gives k) :
    (Constant.ofNumber n).value.Gives k := by
  intro hreal hfinite
  rcases n.ofNumber_cases with hn | ⟨hn, hvalue⟩ | ⟨-, -, hn⟩
  · rw [hn] at hreal hfinite ⊢
    exact h hreal hfinite
  · have hsymm := beq_symm _ _ hvalue
    exact beq_trans _ _ _ hsymm (h hn (isFinite_of_beq _ _ hsymm hfinite))
  · rw [hn] at hreal hfinite ⊢
    exact gives_nan k hreal hfinite

theorem Meets.ofNumber {n : Number α} (h : n.value.Meets k) :
    (Constant.ofNumber n).value.Meets k := fun hk => (h hk).ofNumber

end ComplexNumber

open ComplexNumber (gives_ofReal gives_self gives_of_beq gives_nan isReal_ofReal)

namespace Constant

variable [LawfulArithmetic α] {c d : Constant α} {m n : Number α} {s : Shape} {x k : α}

theorem meets_nan (s : Shape) (k : α) : (nan s : Constant α).value.Meets k :=
  fun _ => gives_nan k

theorem meets_calculated (h : isFinite k → x == k) : (calculated x s).value.Meets k :=
  fun hk => (gives_ofReal fun _ => h hk).ofNumber

omit [LawfulArithmetic α] in
theorem asReal?_of_isReal {z : ComplexNumber α} (hz : z.isReal = true) : z.asReal? = some z.re :=
  if_pos hz

/-- Two real numbers are combined as real numbers. -/
theorem gives_combine {realOp : α → α → α}
    {complexOp : ComplexNumber α → ComplexNumber α → ComplexNumber α} (hm : m.value.isReal = true)
    (hn : n.value.isReal = true) :
    (Number.combine realOp complexOp m n s).value.Gives (realOp m.value.re n.value.re) := by
  apply ComplexNumber.Gives.ofNumber
  simp only [Number.asReal?, asReal?_of_isReal hm, asReal?_of_isReal hn]
  exact gives_self _

theorem gives_withShape (h : isFinite c.real → k == c.real) : (c.withShape s).value.Gives k := by
  intro _ hfinite
  rw [value_withShape] at hfinite ⊢
  exact beq_symm _ _ (h hfinite)

theorem meets_addIn (hc : c.IsReal) (hd : d.IsReal) :
    (c.addIn s d).value.Meets (c.real + d.real) := by
  have hone : isFinite (Scalar.one : α) := isFinite_one
  have hnegOne : isFinite (-Scalar.one : α) := isFinite_negOne
  -- One and minus one are added to a number on its right, and minus one as a difference.
  have hunity {x : α} (h : isFinite (Scalar.one + x)) : x + Scalar.one == Scalar.one + x :=
    add_comm _ _ (isFinite_of_add _ _ h).2 hone
  have hnegUnity {x : α} (h : isFinite (x + -Scalar.one)) : x - Scalar.one == x + -Scalar.one :=
    sub_eq _ _ (isFinite_of_add _ _ h).1 hone
  cases c with
  | nan r => exact meets_nan s _
  | zero r =>
    cases d with
    | nan t => exact meets_nan s _
    | zero t | unity t | negUnity t | number n => exact (gives_withShape zero_add).meets
  | unity r =>
    cases d with
    | nan t => exact meets_nan s _
    | zero t => exact (gives_withShape (add_zero _)).meets
    | unity t => exact meets_calculated (beq_refl _)
    | negUnity t => exact fun _ => gives_of_beq (add_neg_self _ hone)
    | number n => exact ComplexNumber.Meets.ofNumber fun hk _ _ => hunity hk
  | negUnity r =>
    cases d with
    | nan t => exact meets_nan s _
    | zero t => exact (gives_withShape (add_zero _)).meets
    | unity t =>
      refine fun _ => gives_of_beq ?_
      exact beq_trans _ _ _ (add_comm _ _ hnegOne hone) (add_neg_self _ hone)
    | negUnity t => exact meets_calculated fun _ => beq_symm _ _ (neg_add_neg _ _ hone hone)
    | number n =>
      refine ComplexNumber.Meets.ofNumber fun hk _ _ => ?_
      have hn := (isFinite_of_add _ _ hk).2
      have hcomm := add_comm _ _ hn hnegOne
      have hsum := isFinite_of_beq _ _ (beq_symm _ _ hcomm) hk
      exact beq_trans _ _ _ (hnegUnity hsum) hcomm
  | number m =>
    cases d with
    | nan t => exact meets_nan s _
    | zero t => exact (gives_withShape (add_zero _)).meets
    | unity t => exact ComplexNumber.Meets.ofNumber fun hk _ _ => beq_refl _ hk
    | negUnity t => exact ComplexNumber.Meets.ofNumber fun hk _ _ => hnegUnity hk
    | number n => exact (gives_combine hc hd).meets

omit [LawfulArithmetic α] in
theorem isReal_ofNumber [LawfulScalar α] (h : n.value.isReal = true) : (ofNumber n).IsReal := by
  unfold ofNumber
  split_ifs
  · exact h
  · exact isReal_ofReal _
  · exact isReal_ofReal _
  · exact isReal_ofReal _
  · exact isReal_ofReal _
  · exact h

omit [LawfulArithmetic α] in
theorem isReal_negIn [LawfulScalar α] (hd : d.IsReal) : (d.negIn s).IsReal := by
  cases d with
  | number n =>
    apply isReal_ofNumber
    change (-n.value).isReal = true
    rw [ComplexNumber.isReal_neg]
    exact hd
  | _ => exact isReal_ofReal _

/-- The opposite of a finite number stays finite when it becomes a symbol. -/
theorem negIn_beq (h : isFinite d.real) : (d.negIn s).real == -d.real := by
  cases d with
  | zero r => exact beq_symm _ _ neg_zero_beq
  | unity r => exact beq_refl _ isFinite_negOne
  | negUnity r =>
    change (Scalar.one : α) == - -Scalar.one
    rw [LawfulScalar.neg_neg]
    exact beq_refl _ isFinite_one
  | nan r =>
    have hundefined : isFinite (Scalar.nan : α) = false := not_isFinite_of_isNaN isNaN_nan
    rw [show isFinite (nan r : Constant α).real = false from hundefined] at h
    exact Bool.noConfusion h
  | number n =>
    have hneg : isFinite (-n.value.re) := isFinite_neg _ h
    rcases Number.ofNumber_cases ⟨-n.value, n.imaginary, s⟩ with hn | ⟨-, hvalue⟩ | ⟨-, hnan, -⟩
    · rw [negIn, hn]
      exact beq_refl _ hneg
    · exact beq_symm _ _ hvalue
    · have hundefined : isFinite (-n.value.re) = false := not_isFinite_of_isNaN hnan
      rw [hundefined] at hneg
      exact Bool.noConfusion hneg

theorem meets_subIn (hc : c.IsReal) (hd : d.IsReal) :
    (c.subIn s d).value.Meets (c.real - d.real) := by
  have hsum : (c.addIn s (d.negIn s)).value.Meets (c.real - d.real) := by
    intro hk
    obtain ⟨hcfinite, hdfinite⟩ := isFinite_of_sub _ _ hk
    have hopposite : c.real + (d.negIn s).real == c.real + -d.real :=
      add_congr _ _ _ hcfinite (isFinite_of_beq _ _ (beq_symm _ _ (negIn_beq hdfinite))
        (isFinite_neg _ hdfinite)) (negIn_beq hdfinite)
    have hdifference : c.real + (d.negIn s).real == c.real - d.real :=
      beq_trans _ _ _ hopposite (beq_symm _ _ (sub_eq _ _ hcfinite hdfinite))
    have hfinite := isFinite_of_beq _ _ (beq_symm _ _ hdifference) hk
    exact (meets_addIn hc (isReal_negIn hd) hfinite).trans fun _ => hdifference
  cases c with
  | nan r => exact meets_nan s _
  | number m =>
    cases d with
    | nan t => exact meets_nan s _
    | number n => exact (gives_combine hc hd).meets
    | _ => exact hsum
  | _ =>
    cases d with
    | nan t => exact meets_nan s _
    | _ => exact hsum

theorem meets_mulIn (hc : c.IsReal) (hd : d.IsReal) :
    (c.mulIn s d).value.Meets (c.real * d.real) := by
  have hzeroLeft : (zero s : Constant α).value.Meets (Scalar.zero * d.real) := fun hk =>
    gives_of_beq (zero_mul (isFinite_of_mul _ _ hk).2)
  have hzeroRight : (zero s : Constant α).value.Meets (c.real * Scalar.zero) := fun hk =>
    gives_of_beq (mul_zero _ (isFinite_of_mul _ _ hk).1)
  cases c with
  | nan r => exact meets_nan s _
  | zero r =>
    cases d with
    | nan t => exact meets_nan s _
    | zero t | unity t | negUnity t | number n => exact hzeroLeft
  | unity r =>
    cases d with
    | nan t => exact meets_nan s _
    | zero t => exact hzeroRight
    | unity t | negUnity t | number n => exact (gives_withShape one_mul).meets
  | negUnity r =>
    cases d with
    | nan t => exact meets_nan s _
    | zero t => exact hzeroRight
    | unity t => exact (gives_withShape (mul_one _)).meets
    | negUnity t =>
      refine fun _ => gives_of_beq ?_
      have hproduct := mul_negOne (-Scalar.one : α) isFinite_negOne
      rwa [LawfulScalar.neg_neg] at hproduct
    | number n =>
      exact ComplexNumber.Meets.ofNumber fun hk _ _ =>
        beq_symm _ _ (negOne_mul (isFinite_of_mul _ _ hk).2)
  | number m =>
    cases d with
    | nan t => exact meets_nan s _
    | zero t => exact hzeroRight
    | unity t => exact (gives_withShape (mul_one _)).meets
    | negUnity t =>
      exact ComplexNumber.Meets.ofNumber fun hk _ _ =>
        beq_symm _ _ (mul_negOne _ (isFinite_of_mul _ _ hk).1)
    | number n => exact (gives_combine hc hd).meets

theorem real_ne_zero (hd : d.IsReal) (hvalue : d.hasZeroValue = false)
    (hnan : isNaN d.real = false) : (d.real == Scalar.zero) = false := by
  cases d with
  | zero r => exact Bool.noConfusion hvalue
  | unity r => exact one_ne_zero
  | negUnity r =>
    change (-Scalar.one == (Scalar.zero : α)) = false
    rw [LawfulScalar.neg_beq, LawfulScalar.beq_neg_zero]
    exact one_ne_zero
  | nan r =>
    rw [show isNaN (nan r : Constant α).real = true from isNaN_nan] at hnan
    exact Bool.noConfusion hnan
  | number n =>
    have hreal : (n.value.im == Scalar.zero) = true := hd
    have hzero : (n.value.re == Scalar.zero && n.value.im == Scalar.zero) = false := hvalue
    rwa [hreal, Bool.and_true] at hzero

/-- A divisor whose value is zero, however it is written, gives the undefined value. -/
theorem meets_divIn (hc : c.IsReal) (hd : d.IsReal) :
    (c.divIn s d).value.Meets (c.real / d.real) := by
  unfold divIn
  split_ifs with hvalue
  · exact meets_nan s _
  intro hk
  obtain ⟨hfinite, hnan⟩ := isFinite_of_div _ _ hk
  have hunity : c.real / Scalar.one == c.real := div_one _ hfinite
  have hnegUnity : (c.negIn s).value.Gives (c.real / -Scalar.one) := fun _ _ =>
    beq_trans _ _ _ (negIn_beq hfinite) (beq_symm _ _ (div_negOne _ hfinite))
  have hzero : Scalar.zero / d.real == Scalar.zero :=
    zero_div _ hnan (real_ne_zero hd (Bool.eq_false_iff.mpr hvalue) hnan)
  cases c with
  | nan r => exact gives_nan _
  | zero r =>
    cases d with
    | nan t => exact gives_nan _
    | zero t | unity t | negUnity t | number n => exact gives_of_beq hzero
  | unity r | negUnity r =>
    cases d with
    | nan t => exact gives_nan _
    | zero t => exact gives_nan _
    | unity t => exact gives_withShape fun _ => hunity
    | negUnity t => exact hnegUnity
    | number n => exact gives_combine (isReal_ofReal _) hd
  | number m =>
    cases d with
    | nan t => exact gives_nan _
    | zero t => exact gives_nan _
    | unity t => exact gives_withShape fun _ => hunity
    | negUnity t => exact hnegUnity
    | number n => exact gives_combine hc hd

end Constant

end FormulaCalculus
