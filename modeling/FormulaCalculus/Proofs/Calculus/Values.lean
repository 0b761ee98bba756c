import FormulaCalculus.Proofs.Calculus.Exact

/-!
Functions of values that are real numbers. Whether a value is a symbol, a number or a tensor, a
function that is defined at the real number gives the value of the real function.
-/

namespace FormulaCalculus

open Shape (scalar)

namespace ComplexNumber

theorem neg_ofReal (x : ℝ) : -(ofReal x) = ofReal (-x) := by
  have him : -(0 : ℝ) = 0 := neg_zero
  exact congrArg (ComplexNumber.mk (-x)) him

theorem isZero_ofReal {x : ℝ} : (ofReal x).isZero = true ↔ x = 0 := by
  have h : (ofReal x).isZero = ((x == Scalar.zero) && (Scalar.zero == (Scalar.zero : ℝ))) := rfl
  simp [h]

end ComplexNumber

namespace Number

/-- Two real numbers are combined on the real line. -/
theorem is_combine {m n : Number ℝ} {x y : ℝ} (hm : m.value = .ofReal x) (hn : n.value = .ofReal y)
    (realOp : ℝ → ℝ → ℝ) (complexOp : ComplexNumber ℝ → ComplexNumber ℝ → ComplexNumber ℝ) :
    (combine realOp complexOp m n scalar).Is (realOp x y) := by
  refine Constant.is_ofNumber rfl ?_
  simp only [asReal?, hm, hn, Constant.asReal?_ofReal]

theorem is_pow {m n : Number ℝ} {x y : ℝ} (hm : m.value = .ofReal x) (hn : n.value = .ofReal y)
    (h : 0 ≤ x ∨ ∃ k : ℤ, y = k) : (m.pow n scalar).Is (x ^ y) := by
  have hvalue : powValue m.value n.value = .ofReal (x ^ y) := by
    rw [hm, hn]
    refine if_pos ?_
    rw [ComplexNumber.isReal_ofReal, ComplexNumber.isReal_ofReal]
    simpa [ComplexNumber.ofReal] using h
  exact Constant.is_ofNumber rfl hvalue

end Number

namespace Constant

variable {c d : Constant ℝ} {x y : ℝ}

theorem is_negIn (hc : c.Is x) : (c.negIn scalar).Is (-x) := by
  cases c with
  | zero s => exact ⟨rfl, by rw [hc.2, neg_zero]⟩
  | unity s => exact ⟨rfl, by rw [hc.2]⟩
  | negUnity s => exact ⟨rfl, by rw [hc.2, neg_neg]⟩
  | nan s => exact hc.elim
  | number n =>
    have hvalue : -n.value = .ofReal (-x) := by rw [hc.2, ComplexNumber.neg_ofReal]
    exact is_ofNumber rfl hvalue

theorem is_addIn (hc : c.Is x) (hd : d.Is y) : (c.addIn scalar d).Is (x + y) := by
  have hone (n : Number ℝ) (z : ℝ) (hn : n.value = .ofReal z) :
      (ofNumber ⟨n.value.addReal Scalar.one, n.imaginary, scalar⟩).Is (z + 1) :=
    is_ofNumber rfl (by rw [hn]; rfl)
  have hnegOne (n : Number ℝ) (z : ℝ) (hn : n.value = .ofReal z) :
      (ofNumber ⟨n.value.subReal Scalar.one, n.imaginary, scalar⟩).Is (z - 1) :=
    is_ofNumber rfl (by rw [hn]; rfl)
  cases c with
  | nan s => exact hc.elim
  | zero s =>
    rw [hc.2, zero_add]
    cases d with
    | nan t => exact hd.elim
    | _ => exact is_withShape hd
  | unity s =>
    rw [hc.2]
    cases d with
    | nan t => exact hd.elim
    | zero t => exact ⟨rfl, by rw [hd.2, add_zero]⟩
    | unity t => rw [hd.2]; exact is_calculated _
    | negUnity t => exact ⟨rfl, by rw [hd.2, add_neg_cancel]⟩
    | number n => rw [add_comm]; exact hone n y hd.2
  | negUnity s =>
    rw [hc.2]
    cases d with
    | nan t => exact hd.elim
    | zero t => exact ⟨rfl, by rw [hd.2, add_zero]⟩
    | unity t => exact ⟨rfl, by rw [hd.2, neg_add_cancel]⟩
    | negUnity t =>
      have htwo : (-1 : ℝ) + -1 = -(1 + 1) := by ring
      rw [hd.2, htwo]
      exact is_calculated _
    | number n => rw [neg_add_eq_sub]; exact hnegOne n y hd.2
  | number m =>
    cases d with
    | nan t => exact hd.elim
    | zero t => rw [hd.2, add_zero]; exact is_withShape hc
    | unity t => rw [hd.2]; exact hone m x hc.2
    | negUnity t => rw [hd.2, ← sub_eq_add_neg]; exact hnegOne m x hc.2
    | number n => exact Number.is_combine hc.2 hd.2 _ _

theorem is_subIn (hc : c.Is x) (hd : d.Is y) : (c.subIn scalar d).Is (x - y) := by
  have hadd : (c.addIn scalar (d.negIn scalar)).Is (x - y) := by
    rw [sub_eq_add_neg]
    exact is_addIn hc (is_negIn hd)
  cases c with
  | nan s => exact hc.elim
  | zero s | unity s | negUnity s =>
    cases d with
    | nan t => exact hd.elim
    | _ => exact hadd
  | number m =>
    cases d with
    | nan t => exact hd.elim
    | number n => exact Number.is_combine hc.2 hd.2 _ _
    | _ => exact hadd

theorem is_mulIn (hc : c.Is x) (hd : d.Is y) : (c.mulIn scalar d).Is (x * y) := by
  have hneg (n : Number ℝ) (z : ℝ) (hn : n.value = .ofReal z) :
      (ofNumber ⟨-n.value, n.imaginary, scalar⟩).Is (-z) :=
    is_ofNumber rfl (by rw [hn, ComplexNumber.neg_ofReal])
  cases c with
  | nan s => exact hc.elim
  | zero s =>
    rw [hc.2, zero_mul]
    cases d with
    | nan t => exact hd.elim
    | _ => exact ⟨rfl, rfl⟩
  | unity s =>
    rw [hc.2, one_mul]
    cases d with
    | nan t => exact hd.elim
    | zero t => exact ⟨rfl, hd.2⟩
    | _ => exact is_withShape hd
  | negUnity s =>
    rw [hc.2, neg_one_mul]
    cases d with
    | nan t => exact hd.elim
    | zero t => exact ⟨rfl, by rw [hd.2, neg_zero]⟩
    | unity t => exact ⟨rfl, by rw [hd.2]⟩
    | negUnity t => exact ⟨rfl, by rw [hd.2, neg_neg]⟩
    | number n => exact hneg n y hd.2
  | number m =>
    cases d with
    | nan t => exact hd.elim
    | zero t => exact ⟨rfl, by rw [hd.2, mul_zero]⟩
    | unity t => rw [hd.2, mul_one]; exact is_withShape hc
    | negUnity t => rw [hd.2, mul_neg_one]; exact hneg m x hc.2
    | number n => exact Number.is_combine hc.2 hd.2 _ _

theorem hasZeroValue_eq_false (hc : c.Is x) (hx : x ≠ 0) : c.hasZeroValue = false := by
  cases c with
  | zero s => exact absurd hc.2 hx
  | number n =>
    rw [hasZeroValue, hc.2, Bool.eq_false_iff]
    exact fun h => hx (ComplexNumber.isZero_ofReal.mp h)
  | _ => rfl

theorem is_divIn (hc : c.Is x) (hd : d.Is y) (hy : y ≠ 0) : (c.divIn scalar d).Is (x / y) := by
  rw [divIn, if_neg (by simp [hasZeroValue_eq_false hd hy])]
  cases c with
  | nan s => exact hc.elim
  | zero s =>
    rw [hc.2, zero_div]
    cases d with
    | nan t => exact hd.elim
    | _ => exact ⟨rfl, rfl⟩
  | unity s =>
    cases d with
    | nan t => exact hd.elim
    | zero t => exact absurd hd.2 hy
    | unity t => rw [hd.2, div_one]; exact is_withShape hc
    | negUnity t => rw [hd.2, div_neg, div_one]; exact is_negIn hc
    | number n => rw [hc.2]; exact Number.is_combine rfl hd.2 _ _
  | negUnity s =>
    cases d with
    | nan t => exact hd.elim
    | zero t => exact absurd hd.2 hy
    | unity t => rw [hd.2, div_one]; exact is_withShape hc
    | negUnity t => rw [hd.2, div_neg, div_one]; exact is_negIn hc
    | number n => rw [hc.2]; exact Number.is_combine rfl hd.2 _ _
  | number m =>
    cases d with
    | nan t => exact hd.elim
    | zero t => exact absurd hd.2 hy
    | unity t => rw [hd.2, div_one]; exact is_withShape hc
    | negUnity t => rw [hd.2, div_neg, div_one]; exact is_negIn hc
    | number n => exact Number.is_combine hc.2 hd.2 _ _

theorem is_powIn (hc : c.Is x) (hd : d.Is y) (h : 0 < x ∨ x ≠ 0 ∧ ∃ k : ℤ, y = k) :
    (c.powIn scalar d).Is (x ^ y) := by
  have hx : x ≠ 0 := h.elim ne_of_gt And.left
  have hline : 0 ≤ x ∨ ∃ k : ℤ, y = k := h.imp le_of_lt And.right
  rw [powIn, if_neg (by simp [hasZeroValue_eq_false hc hx])]
  cases c with
  | nan s => exact hc.elim
  | zero s => exact absurd hc.2 hx
  | unity s =>
    rw [hc.2, Real.one_rpow]
    cases d with
    | nan t => exact hd.elim
    | _ => exact ⟨rfl, rfl⟩
  | negUnity s =>
    cases d with
    | nan t => exact hd.elim
    | zero t => exact ⟨rfl, by rw [hd.2, Real.rpow_zero]⟩
    | unity t => exact ⟨rfl, by rw [hd.2, Real.rpow_one, hc.2]⟩
    | negUnity t => exact ⟨rfl, by rw [hd.2, Real.rpow_neg_one, hc.2, inv_neg_one]⟩
    | number n => exact Number.is_pow (by rw [hc.2]; rfl) hd.2 hline
  | number m =>
    cases d with
    | nan t => exact hd.elim
    | zero t => exact ⟨rfl, by rw [hd.2, Real.rpow_zero]⟩
    | unity t => rw [hd.2, Real.rpow_one]; exact is_ofNumber rfl hc.2
    | negUnity t =>
      rw [hd.2, Real.rpow_neg_one, ← one_div]
      exact Number.is_combine rfl hc.2 _ _
    | number n => exact Number.is_pow hc.2 hd.2 hline

theorem atan2In_eq (hc : c.Is x) (hd : d.Is y) :
    c.atan2In scalar d = .ok (calculated (Scalar.atan2 x y) scalar) := by
  have hcoordinate {c : Constant ℝ} {x : ℝ} (hc : c.Is x) : c.coordinate = .ok x := by
    rw [coordinate, hc.value_eq, asReal?_ofReal]
  cases c <;> cases d <;>
    first
    | exact hc.elim
    | exact hd.elim
    | (simp only [atan2In, hcoordinate hc, hcoordinate hd]; rfl)

end Constant

/-- The operands at which a function of two operands has an exact value. -/
def BinaryFn.Defined : BinaryFn → ℝ → ℝ → Prop
  | .div => fun _ y => y ≠ 0
  | .pow => fun x y => 0 < x ∨ x ≠ 0 ∧ ∃ k : ℤ, y = k
  | _ => fun _ _ => True

namespace Tensor

theorem combineWith_singleton {c : Constant ℝ} (hc : c.shape = scalar) (g : ℝ → ℝ) (x : ℝ) :
    (singleton x).combineWith g c = .ok (.tensor (singleton (g x))) := by
  rw [combineWith, hc]
  rfl

theorem isDivisor_singleton (x : ℝ) : (singleton x).isDivisor = true ↔ x ≠ 0 := by
  have h : (singleton x).isDivisor = (!(x == Scalar.zero) && !Scalar.isNaN x && true) := rfl
  simp [h]

end Tensor

namespace BinaryFn

variable {f : BinaryFn} {c d : Constant ℝ} {x y : ℝ}

theorem onConstants_yields (hc : c.Is x) (hd : d.Is y) (h : f.Defined x y) :
    ∃ e, f.onConstants c d = .ok e ∧ e.Is (f.real x y) := by
  have hshape : Tensor.joinShapes (ε := ℝ) c.shape d.shape = .ok scalar := by
    rw [hc.shape_eq, hd.shape_eq]
    rfl
  unfold onConstants
  rw [hshape]
  cases f with
  | add => exact ⟨_, rfl, Constant.is_addIn hc hd⟩
  | sub => exact ⟨_, rfl, Constant.is_subIn hc hd⟩
  | mul => exact ⟨_, rfl, Constant.is_mulIn hc hd⟩
  | div => exact ⟨_, rfl, Constant.is_divIn hc hd h⟩
  | pow => exact ⟨_, rfl, Constant.is_powIn hc hd h⟩
  | atan2 => exact ⟨_, Constant.atan2In_eq hc hd, Constant.is_calculated _⟩

theorem realPart_eq (hc : c.Is x) (operation : String) : Value.realPart operation c = .ok x := by
  rw [Value.realPart, hc.value_eq, Constant.asReal?_ofReal]

theorem combineWith_yields (hc : c.Is y) {g : ℝ → ℝ} {z : ℝ} (hz : g x = z) :
    Yields ((Tensor.singleton x).combineWith g c) z :=
  ⟨_, Tensor.combineWith_singleton hc.shape_eq g x, by rw [hz]; rfl⟩

theorem onTensorConstant_yields (hd : d.Is y) (h : f.Defined x y) :
    Yields (f.onTensorConstant (Tensor.singleton x) d) (f.real x y) := by
  have hshape : Tensor.joinShapes (ε := ℝ) (Tensor.singleton x).shape d.shape = .ok scalar := by
    rw [hd.shape_eq]
    rfl
  have hreal : Yields (do
      let z ← Value.realPart f.name d
      (Tensor.singleton x).combineWith (fun w => f.real w z) d) (f.real x y) := by
    rw [realPart_eq hd]
    exact combineWith_yields hd rfl
  unfold onTensorConstant
  rw [hshape]
  cases d with
  | nan s => exact hd.elim
  | zero s =>
    cases f with
    | add => exact combineWith_yields hd (by rw [hd.2]; exact (add_zero x).symm)
    | sub => exact combineWith_yields hd (by rw [hd.2]; exact (sub_zero x).symm)
    | mul => exact .of_is ⟨rfl, by rw [hd.2]; exact mul_zero x⟩
    | div => exact absurd hd.2 h
    | pow => exact .of_is ⟨rfl, by rw [hd.2]; exact Real.rpow_zero x⟩
    | atan2 => exact hreal
  | unity s =>
    cases f with
    | mul => exact combineWith_yields hd (by rw [hd.2]; exact (mul_one x).symm)
    | div => exact combineWith_yields hd (by rw [hd.2]; exact (div_one x).symm)
    | pow => exact combineWith_yields hd (by rw [hd.2]; exact (Real.rpow_one x).symm)
    | _ => exact hreal
  | negUnity s =>
    cases f with
    | mul => exact combineWith_yields hd (by rw [hd.2]; exact (mul_neg_one x).symm)
    | div => exact combineWith_yields hd (by rw [hd.2]; exact (by ring : -x = x / -1))
    | pow =>
      refine combineWith_yields hd ?_
      rw [hd.2]
      exact (one_div x).trans (Real.rpow_neg_one x).symm
    | _ => exact hreal
  | number n => cases f <;> exact hreal

theorem onConstantTensor_yields (hc : c.Is x) (h : f.Defined x y) :
    Yields (f.onConstantTensor c (Tensor.singleton y)) (f.real x y) := by
  have hshape : Tensor.joinShapes (ε := ℝ) c.shape (Tensor.singleton y).shape = .ok scalar := by
    rw [hc.shape_eq]
    rfl
  have hreal : Yields (do
      let z ← Value.realPart f.name c
      (Tensor.singleton y).combineWith (fun w => f.real z w) c) (f.real x y) := by
    rw [realPart_eq hc]
    exact combineWith_yields hc rfl
  unfold onConstantTensor
  rw [hshape]
  cases c with
  | nan s => exact hc.elim
  | zero s =>
    cases f with
    | add => exact combineWith_yields hc (by rw [hc.2]; exact (zero_add y).symm)
    | sub => exact combineWith_yields hc (by rw [hc.2]; exact (zero_sub y).symm)
    | mul => exact .of_is ⟨rfl, by rw [hc.2]; exact zero_mul y⟩
    | div =>
      have hdivisor : (Tensor.singleton y).isDivisor = true := (Tensor.isDivisor_singleton y).mpr h
      simp only [hdivisor]
      exact .of_is ⟨rfl, by rw [hc.2]; exact zero_div y⟩
    | _ => exact hreal
  | unity s =>
    cases f with
    | mul => exact combineWith_yields hc (by rw [hc.2]; exact (one_mul y).symm)
    | pow => exact .of_is ⟨rfl, by rw [hc.2]; exact Real.one_rpow y⟩
    | _ => exact hreal
  | negUnity s =>
    cases f with
    | mul => exact combineWith_yields hc (by rw [hc.2]; exact (neg_one_mul y).symm)
    | _ => exact hreal
  | number n => cases f <;> exact hreal

/-- A function of two values that are real numbers, where it has an exact value. -/
theorem onValues_yields {v w : Value ℝ} (hv : v.Is x) (hw : w.Is y) (h : f.Defined x y) :
    Yields (f.onValues v w) (f.real x y) := by
  cases v with
  | tensor a =>
    obtain rfl : a = Tensor.singleton x := hv
    cases w with
    | tensor b =>
      obtain rfl : b = Tensor.singleton y := hw
      exact ⟨_, rfl, rfl⟩
    | symbol d => exact onTensorConstant_yields hw h
  | symbol c =>
    cases w with
    | tensor b =>
      obtain rfl : b = Tensor.singleton y := hw
      exact onConstantTensor_yields hv h
    | symbol d =>
      obtain ⟨e, he, his⟩ := onConstants_yields hv hw h
      refine ⟨.symbol e, ?_, his⟩
      rw [onValues, he]
      rfl

end BinaryFn

namespace UnaryFn

variable {f : UnaryFn} {c : Constant ℝ} {x : ℝ}

theorem atNumber_is {n : Number ℝ} (hn : (Constant.number n).Is x) (h : f.inDomain x = true) :
    (f.atNumber n).Is (f.real x) := by
  have hreal : f.isUndefinedAt n = false ∧ f.numberValue n.value = .ofReal (f.real x) := by
    constructor
    · simp [isUndefinedAt, Number.asReal?, hn.2, Constant.asReal?_ofReal, h]
    · simp [numberValue, hn.2, Constant.asReal?_ofReal, h]
  have hother : (if f.isUndefinedAt n then Constant.nan n.shape
      else
        let z := f.numberValue n.value
        Constant.ofNumber ⟨z, n.imaginary || !z.isReal, n.shape⟩).Is (f.real x) := by
    rw [if_neg (by simp [hreal.1])]
    exact Constant.is_ofNumber hn.1 hreal.2
  cases f with
  | neg =>
    have hvalue : -n.value = .ofReal (-x) := by rw [hn.2, ComplexNumber.neg_ofReal]
    exact Constant.is_ofNumber hn.1 hvalue
  | abs =>
    have hnorm : n.value.norm = |x| := by
      have hsqrt : n.value.norm = Real.sqrt (x ^ 2 + 0 ^ 2) := by rw [hn.2]; rfl
      rw [hsqrt, zero_pow two_ne_zero, add_zero, Real.sqrt_sq_eq_abs]
    rw [atNumber, hnorm, hn.1]
    exact Constant.is_calculated _
  | _ => exact hother

theorem toConstant_real_is {x z : ℝ} (h : x = z) :
    ((ExactValue.real x).toConstant scalar).Is z := by
  rw [← h]
  exact Constant.is_calculated x

theorem pi_div_two : (Scalar.pi / Scalar.two : ℝ) = Real.pi / 2 := by
  rw [Exact.two_eq]
  rfl

theorem pi_div_four : (Scalar.pi / Scalar.four : ℝ) = Real.pi / 4 := by
  have hfour : (Scalar.four : ℝ) = 4 := by
    have h : (Scalar.four : ℝ) = Scalar.two + Scalar.two := rfl
    rw [h, Exact.two_eq]
    norm_num
  rw [hfour]
  rfl

/-- The exact entries at zero are the values of the real functions. -/
theorem atZero_is (h : f.inDomain (0 : ℝ) = true) : (f.atZero.toConstant scalar).Is (f.real 0) := by
  cases f with
  | neg => exact ⟨rfl, neg_zero⟩
  | abs => exact ⟨rfl, abs_zero⟩
  | sqrt => exact ⟨rfl, Real.sqrt_zero⟩
  | square => exact ⟨rfl, mul_zero 0⟩
  | exp => exact ⟨rfl, Real.exp_zero⟩
  | log | log10 => exact absurd (Exact.lt_eq.mp h) (lt_irrefl 0)
  | sin => exact ⟨rfl, Real.sin_zero⟩
  | cos => exact ⟨rfl, Real.cos_zero⟩
  | tan => exact ⟨rfl, Real.tan_zero⟩
  | asin => exact ⟨rfl, Real.arcsin_zero⟩
  | acos => exact toConstant_real_is (pi_div_two.trans Real.arccos_zero.symm)
  | atan => exact ⟨rfl, Real.arctan_zero⟩
  | sinh => exact ⟨rfl, Real.sinh_zero⟩
  | cosh => exact ⟨rfl, Real.cosh_zero⟩
  | tanh => exact ⟨rfl, Real.tanh_zero⟩
  | asinh => exact ⟨rfl, Real.arsinh_zero⟩
  | acosh => exact absurd (Exact.le_eq.mp h) (not_le.mpr one_pos)
  | atanh => exact ⟨rfl, Real.artanh_zero⟩

theorem atUnity_is (h : f.inDomain (1 : ℝ) = true) :
    (f.atUnity.toConstant scalar).Is (f.real 1) := by
  cases f with
  | neg => exact ⟨rfl, rfl⟩
  | abs => exact ⟨rfl, abs_one⟩
  | sqrt => exact ⟨rfl, Real.sqrt_one⟩
  | square => exact ⟨rfl, mul_one 1⟩
  | log => exact ⟨rfl, Real.log_one⟩
  | log10 =>
    have hvalue : Real.log 1 / Real.log 10 = 0 := by rw [Real.log_one, zero_div]
    exact ⟨rfl, hvalue⟩
  | asin => exact toConstant_real_is (pi_div_two.trans Real.arcsin_one.symm)
  | acos => exact ⟨rfl, Real.arccos_one⟩
  | atan => exact toConstant_real_is (pi_div_four.trans Real.arctan_one.symm)
  | acosh => exact ⟨rfl, Real.arcosh_zero⟩
  | atanh =>
    have hlt : |(1 : ℝ)| < 1 := Exact.lt_eq.mp h
    rw [abs_one] at hlt
    exact absurd hlt (lt_irrefl 1)
  | exp | sin | cos | tan | sinh | cosh | tanh | asinh => exact toConstant_real_is rfl

theorem atNegUnity_is (h : f.inDomain (-1 : ℝ) = true) :
    (f.atNegUnity.toConstant scalar).Is (f.real (-1)) := by
  cases f with
  | neg => exact ⟨rfl, neg_neg 1⟩
  | abs =>
    have hvalue : |(-1 : ℝ)| = 1 := by rw [abs_neg, abs_one]
    exact ⟨rfl, hvalue⟩
  | sqrt => exact absurd (Exact.le_eq.mp h) (not_le.mpr neg_one_lt_zero)
  | square =>
    have hvalue : (-1 : ℝ) * -1 = 1 := by norm_num
    exact ⟨rfl, hvalue⟩
  | exp => exact toConstant_real_is ((one_div _).trans (Real.exp_neg 1).symm)
  | log | log10 => exact absurd (Exact.lt_eq.mp h) (not_lt.mpr neg_one_lt_zero.le)
  | asin =>
    refine toConstant_real_is ?_
    rw [pi_div_two]
    exact Real.arcsin_neg_one.symm
  | acos => exact toConstant_real_is Real.arccos_neg_one.symm
  | atan =>
    have hvalue : Real.arctan (-1) = -(Real.pi / 4) := by rw [Real.arctan_neg, Real.arctan_one]
    refine toConstant_real_is ?_
    rw [pi_div_four]
    exact hvalue.symm
  | acosh =>
    have hle : (1 : ℝ) ≤ -1 := Exact.le_eq.mp h
    exact absurd hle (by norm_num)
  | atanh =>
    have hlt : |(-1 : ℝ)| < 1 := Exact.lt_eq.mp h
    rw [abs_neg, abs_one] at hlt
    exact absurd hlt (lt_irrefl 1)
  | sin | cos | tan | sinh | cosh | tanh | asinh => exact toConstant_real_is rfl

theorem onConstant_is (hc : c.Is x) (h : f.inDomain x = true) : (f.onConstant c).Is (f.real x) := by
  cases c with
  | zero s =>
    obtain ⟨rfl, rfl⟩ := hc
    exact atZero_is h
  | unity s =>
    obtain ⟨rfl, rfl⟩ := hc
    exact atUnity_is h
  | negUnity s =>
    obtain ⟨rfl, rfl⟩ := hc
    exact atNegUnity_is h
  | nan s => exact hc.elim
  | number n => exact atNumber_is hc h

/-- A function of a value that is a real number inside the function's domain. -/
theorem onValue_is {v : Value ℝ} (hv : v.Is x) (h : f.inDomain x = true) :
    (f.onValue v).Is (f.real x) := by
  cases v with
  | tensor a =>
    obtain rfl : a = Tensor.singleton x := hv
    rfl
  | symbol c => exact onConstant_is hv h

end UnaryFn

end FormulaCalculus
