import Mathlib
import FormulaCalculus.Proofs.Algebra.WellFormed

/-!
Exact arithmetic: the real numbers as scalars, every operation the real function that it computes on
machine numbers. A value is read as a real number when it is that number in shape `[1]`, and a
function of values that are read as real numbers is read as the function of these numbers.
-/

namespace FormulaCalculus

open Classical in
/-- Real numbers. All of them are numbers and finite, so nothing equals the value that stands for an
infinite absolute value. -/
noncomputable instance : Scalar ℝ where
  toAdd := inferInstance
  toSub := inferInstance
  toMul := inferInstance
  toDiv := inferInstance
  toNeg := inferInstance
  beq x y := decide (x = y)
  zero := 0
  one := 1
  e := Real.exp 1
  pi := Real.pi
  ln10 := Real.log 10
  infinity := -1
  nan := 0
  ofDecimal m k := m * 10 ^ k
  lt x y := decide (x < y)
  le x y := decide (x ≤ y)
  isNaN _ := false
  isNegative x := decide (x < 0)
  isWhole x := decide (∃ n : ℤ, x = n)
  abs x := |x|
  sqrt := Real.sqrt
  exp := Real.exp
  log := Real.log
  log10 x := Real.log x / Real.log 10
  sin := Real.sin
  cos := Real.cos
  tan := Real.tan
  asin := Real.arcsin
  acos := Real.arccos
  atan := Real.arctan
  sinh := Real.sinh
  cosh := Real.cosh
  tanh := Real.tanh
  asinh := Real.arsinh
  acosh := Real.arcosh
  atanh := Real.artanh
  pow x y := x ^ y
  atan2 y x := Complex.arg ⟨x, y⟩
  hypot x y := Real.sqrt (x ^ 2 + y ^ 2)

namespace Exact

@[simp] theorem zero_eq : (Scalar.zero : ℝ) = 0 := rfl
@[simp] theorem one_eq : (Scalar.one : ℝ) = 1 := rfl
@[simp] theorem two_eq : (Scalar.two : ℝ) = 2 := one_add_one_eq_two
@[simp] theorem half_eq : (Scalar.half : ℝ) = 1 / 2 := by
  rw [Scalar.half, two_eq]
  rfl
@[simp] theorem ln10_eq : (Scalar.ln10 : ℝ) = Real.log 10 := rfl
@[simp] theorem isNaN_eq (x : ℝ) : Scalar.isNaN x = false := rfl
@[simp] theorem beq_eq {x y : ℝ} : (x == y) = true ↔ x = y := decide_eq_true_iff
@[simp] theorem lt_eq {x y : ℝ} : Scalar.lt x y = true ↔ x < y := decide_eq_true_iff
@[simp] theorem le_eq {x y : ℝ} : Scalar.le x y = true ↔ x ≤ y := decide_eq_true_iff
@[simp] theorem isWhole_eq {x : ℝ} : Scalar.isWhole x = true ↔ ∃ n : ℤ, x = n := by
  classical exact decide_eq_true_iff

theorem plain_of_ne {x : ℝ} (hzero : x ≠ 0) (hone : x ≠ 1) (hnegOne : x ≠ -1) :
    Scalar.Plain x := by
  constructor
  · rw [Bool.eq_false_iff, Ne, beq_eq]
    exact hzero
  · rw [Bool.eq_false_iff, Ne, beq_eq]
    exact hone
  · rw [Bool.eq_false_iff, Ne, beq_eq]
    exact hnegOne
  · rfl

end Exact

instance : LawfulScalar ℝ where
  neg_neg x := neg_neg x
  neg_beq x y := by
    rw [Bool.eq_iff_iff, Exact.beq_eq, Exact.beq_eq]
    exact neg_eq_iff_eq_neg
  beq_neg_zero x := by rw [Exact.zero_eq, neg_zero]
  zero_beq_zero := Exact.beq_eq.mpr rfl
  isNaN_neg x := rfl
  half_plain := Exact.plain_of_ne (by norm_num) (by norm_num) (by norm_num)
  two_plain := Exact.plain_of_ne (by norm_num) (by norm_num) (by norm_num)
  ln10_plain := by
    have hlog : 1 < Real.log 10 := by
      rw [Real.lt_log_iff_exp_lt (by norm_num)]
      exact Real.exp_one_lt_three.trans (by norm_num)
    exact Exact.plain_of_ne (by rw [Exact.ln10_eq]; linarith) (by rw [Exact.ln10_eq]; linarith)
      (by rw [Exact.ln10_eq]; linarith)

/-- Whether a constant is a real number in shape `[1]`. -/
def Constant.Is (x : ℝ) : Constant ℝ → Prop
  | .zero s => s = Shape.scalar ∧ x = 0
  | .unity s => s = Shape.scalar ∧ x = 1
  | .negUnity s => s = Shape.scalar ∧ x = -1
  | .nan _ => False
  | .number n => n.shape = Shape.scalar ∧ n.value = .ofReal x

/-- Whether a value is a real number in shape `[1]`. -/
def Value.Is (x : ℝ) : Value ℝ → Prop
  | .tensor a => a = Tensor.singleton x
  | .symbol c => c.Is x

/-- Whether a calculation succeeds with a value that is a real number. -/
def Yields (m : Except (AlgebraError ℝ) (Value ℝ)) (x : ℝ) : Prop := ∃ v, m = .ok v ∧ v.Is x

namespace Yields

variable {m : Except (AlgebraError ℝ) (Value ℝ)} {x y : ℝ}

theorem of_is {v : Value ℝ} (h : v.Is x) : Yields (.ok v) x := ⟨v, rfl, h⟩

theorem bind (h : Yields m x) {k : Value ℝ → Except (AlgebraError ℝ) (Value ℝ)}
    (hk : ∀ v : Value ℝ, v.Is x → Yields (k v) y) : Yields (m >>= k) y := by
  obtain ⟨v, rfl, hv⟩ := h
  exact hk v hv

end Yields

namespace Constant

theorem Is.shape_eq {c : Constant ℝ} {x : ℝ} (h : c.Is x) : c.shape = Shape.scalar := by
  cases c <;> first | exact h.1 | exact h.elim

theorem Is.value_eq {c : Constant ℝ} {x : ℝ} (h : c.Is x) : c.value = .ofReal x := by
  cases c with
  | zero s | unity s | negUnity s =>
    rw [h.2]
    rfl
  | nan s => exact h.elim
  | number n => exact h.2

theorem asReal?_ofReal (x : ℝ) : (ComplexNumber.ofReal x).asReal? = some x := by
  rw [ComplexNumber.asReal?, ComplexNumber.isReal_ofReal]
  rfl

/-- A calculated number stays what it is when it becomes a symbol. -/
theorem is_ofNumber {n : Number ℝ} {x : ℝ} (hshape : n.shape = Shape.scalar)
    (hvalue : n.value = .ofReal x) : (ofNumber n).Is x := by
  have hre : n.value.re = x := by rw [hvalue]; rfl
  unfold ofNumber
  split_ifs with hflag hzero hone hnegOne hnan
  · exact ⟨hshape, hvalue⟩
  · exact ⟨hshape, hre ▸ Exact.beq_eq.mp hzero⟩
  · exact ⟨hshape, hre ▸ Exact.beq_eq.mp hone⟩
  · exact ⟨hshape, hre ▸ Exact.beq_eq.mp hnegOne⟩
  · exact absurd hnan (by simp)
  · exact ⟨hshape, hvalue⟩

theorem is_calculated (x : ℝ) : (calculated x Shape.scalar).Is x := is_ofNumber rfl rfl

theorem is_withShape {c : Constant ℝ} {x : ℝ} (h : c.Is x) : (c.withShape Shape.scalar).Is x := by
  cases c with
  | zero s | unity s | negUnity s | number n => exact ⟨rfl, h.2⟩
  | nan s => exact h.elim

end Constant

end FormulaCalculus
