import FormulaCalculus.Proofs.Calculus.Slopes
import FormulaCalculus.Tree.Derivative

/-!
The chain rules on values that are real numbers. Each rule succeeds at regular arguments, and what
it gives is the slope of its function times the inner derivative.
-/

namespace FormulaCalculus

open Shape (scalar)

theorem Yields.congr {m : Except (AlgebraError ℝ) (Value ℝ)} {x y : ℝ} (h : Yields m x)
    (hxy : x = y) : Yields m y := hxy ▸ h

namespace Terms

theorem one_is : (one : Value ℝ).Is 1 := ⟨rfl, rfl⟩

theorem half_is : (real Scalar.half : Value ℝ).Is (1 / 2) :=
  ⟨rfl, congrArg ComplexNumber.ofReal Exact.half_eq⟩

theorem two_is : (real Scalar.two : Value ℝ).Is 2 :=
  ⟨rfl, congrArg ComplexNumber.ofReal Exact.two_eq⟩

theorem ln10_is : (real Scalar.ln10 : Value ℝ).Is (Real.log 10) := ⟨rfl, rfl⟩

variable {u du l r dl dr : Value ℝ} {x y d dx dy : ℝ}

/-- The chain rule of a function of one operand. -/
theorem unaryRule_yields {f : UnaryFn} (hu : u.Is x) (hdu : du.Is d) (h : f.RegularAt x) :
    Yields (unaryRule f u du) (f.slope x * d) := by
  have hsquare : (unary .square u).Is (x * x) := UnaryFn.onValue_is (f := .square) hu rfl
  cases f with
  | neg => exact ⟨_, rfl, by rw [UnaryFn.slope, neg_one_mul]; exact UnaryFn.onValue_is hdu rfl⟩
  | abs =>
    have habs : (unary .abs u).Is |x| := UnaryFn.onValue_is (f := .abs) hu rfl
    have hne : |x| ≠ 0 := abs_ne_zero.mpr h
    exact (BinaryFn.onValues_yields (f := .div) hu habs hne).bind fun v hv =>
      BinaryFn.onValues_yields (f := .mul) hv hdu trivial
  | sqrt =>
    have hroot : (unary .sqrt u).Is √x :=
      UnaryFn.onValue_is (f := .sqrt) hu (UnaryFn.inDomain_of_regularAt h)
    have hne : √x ≠ 0 := (Real.sqrt_pos.mpr h).ne'
    refine ((BinaryFn.onValues_yields (f := .mul) half_is hdu trivial).bind fun v hv =>
      BinaryFn.onValues_yields (f := .div) hv hroot hne).congr ?_
    exact (div_mul_eq_mul_div _ _ _).symm
  | square =>
    exact (BinaryFn.onValues_yields (f := .mul) two_is hu trivial).bind fun v hv =>
      BinaryFn.onValues_yields (f := .mul) hv hdu trivial
  | exp =>
    exact BinaryFn.onValues_yields (f := .mul) (UnaryFn.onValue_is (f := .exp) hu rfl) hdu trivial
  | log =>
    have hne : x ≠ 0 := ne_of_gt h
    refine (BinaryFn.onValues_yields (f := .div) hdu hu hne).congr ?_
    exact (one_div_mul_eq_div _ _).symm
  | log10 =>
    have hne : x * Real.log 10 ≠ 0 := mul_ne_zero (ne_of_gt h) (Real.log_pos (by norm_num)).ne'
    refine ((BinaryFn.onValues_yields (f := .mul) hu ln10_is trivial).bind fun v hv =>
      BinaryFn.onValues_yields (f := .div) hdu hv hne).congr ?_
    exact (one_div_mul_eq_div _ _).symm
  | sin =>
    exact BinaryFn.onValues_yields (f := .mul) (UnaryFn.onValue_is (f := .cos) hu rfl) hdu trivial
  | cos =>
    have hsin : (unary .sin u).Is (Real.sin x) := UnaryFn.onValue_is (f := .sin) hu rfl
    exact BinaryFn.onValues_yields (f := .mul) (UnaryFn.onValue_is (f := .neg) hsin rfl) hdu trivial
  | tan =>
    have hcos : (unary .cos u).Is (Real.cos x) := UnaryFn.onValue_is (f := .cos) hu rfl
    have hne : Real.cos x * Real.cos x ≠ 0 := mul_ne_zero h h
    refine (BinaryFn.onValues_yields (f := .div) hdu
      (UnaryFn.onValue_is (f := .square) hcos rfl) hne).congr ?_
    exact (one_div_mul_eq_div _ _).symm
  | asin =>
    have hpos : 0 < 1 - x * x := by nlinarith [h.1, h.2]
    refine ((BinaryFn.onValues_yields (f := .sub) one_is hsquare trivial).bind fun v hv =>
      BinaryFn.onValues_yields (f := .div) hdu
        (UnaryFn.onValue_is (f := .sqrt) hv (Exact.le_eq.mpr hpos.le))
        (Real.sqrt_pos.mpr hpos).ne').congr ?_
    exact (one_div_mul_eq_div _ _).symm
  | acos =>
    have hpos : 0 < 1 - x * x := by nlinarith [h.1, h.2]
    refine ((BinaryFn.onValues_yields (f := .sub) one_is hsquare trivial).bind fun v hv =>
      BinaryFn.onValues_yields (f := .div) (UnaryFn.onValue_is (f := .neg) hdu rfl)
        (UnaryFn.onValue_is (f := .sqrt) hv (Exact.le_eq.mpr hpos.le))
        (Real.sqrt_pos.mpr hpos).ne').congr ?_
    change -d / √(1 - x * x) = -1 / √(1 - x * x) * d
    ring
  | atan =>
    have hne : 1 + x * x ≠ 0 := by nlinarith [mul_self_nonneg x]
    refine ((BinaryFn.onValues_yields (f := .add) one_is hsquare trivial).bind fun v hv =>
      BinaryFn.onValues_yields (f := .div) hdu hv hne).congr ?_
    exact (one_div_mul_eq_div _ _).symm
  | sinh =>
    exact BinaryFn.onValues_yields (f := .mul) (UnaryFn.onValue_is (f := .cosh) hu rfl) hdu trivial
  | cosh =>
    exact BinaryFn.onValues_yields (f := .mul) (UnaryFn.onValue_is (f := .sinh) hu rfl) hdu trivial
  | tanh =>
    have hcosh : (unary .cosh u).Is (Real.cosh x) := UnaryFn.onValue_is (f := .cosh) hu rfl
    have hne : Real.cosh x * Real.cosh x ≠ 0 := (mul_pos (Real.cosh_pos x) (Real.cosh_pos x)).ne'
    refine (BinaryFn.onValues_yields (f := .div) hdu
      (UnaryFn.onValue_is (f := .square) hcosh rfl) hne).congr ?_
    exact (one_div_mul_eq_div _ _).symm
  | asinh =>
    have hpos : 0 < x * x + 1 := by nlinarith [mul_self_nonneg x]
    refine ((BinaryFn.onValues_yields (f := .add) hsquare one_is trivial).bind fun v hv =>
      BinaryFn.onValues_yields (f := .div) hdu
        (UnaryFn.onValue_is (f := .sqrt) hv (Exact.le_eq.mpr hpos.le))
        (Real.sqrt_pos.mpr hpos).ne').congr ?_
    exact (one_div_mul_eq_div _ _).symm
  | acosh =>
    have hlt : 1 < x := h
    have hpos : 0 < x * x - 1 := by nlinarith
    refine ((BinaryFn.onValues_yields (f := .sub) hsquare one_is trivial).bind fun v hv =>
      BinaryFn.onValues_yields (f := .div) hdu
        (UnaryFn.onValue_is (f := .sqrt) hv (Exact.le_eq.mpr hpos.le))
        (Real.sqrt_pos.mpr hpos).ne').congr ?_
    exact (one_div_mul_eq_div _ _).symm
  | atanh =>
    have hpos : 0 < 1 - x * x := by nlinarith [h.1, h.2]
    refine ((BinaryFn.onValues_yields (f := .sub) one_is hsquare trivial).bind fun v hv =>
      BinaryFn.onValues_yields (f := .div) hdu hv hpos.ne').congr ?_
    exact (one_div_mul_eq_div _ _).symm

/-- The rule of a power with a constant exponent. -/
theorem powRule_yields (hl : l.Is x) (hr : r.Is y) (hdl : dl.Is dx)
    (h : 0 < x ∨ x ≠ 0 ∧ ∃ k : ℤ, y = k) : Yields (powRule l r dl) (y * x ^ (y - 1) * dx) := by
  have hreduced : 0 < x ∨ x ≠ 0 ∧ ∃ k : ℤ, y - 1 = k := by
    refine h.imp_right fun ⟨hne, k, hk⟩ => ⟨hne, k - 1, ?_⟩
    rw [hk, Int.cast_sub, Int.cast_one]
  refine (BinaryFn.onValues_yields (f := .sub) hr one_is trivial).bind fun reduced hsub => ?_
  refine (BinaryFn.onValues_yields (f := .pow) hl hsub hreduced).bind fun power hpower => ?_
  refine (BinaryFn.onValues_yields (f := .mul) hr hpower trivial).bind fun factor hfactor => ?_
  exact BinaryFn.onValues_yields (f := .mul) hfactor hdl trivial

/-- The rule of a power with a positive base, by logarithmic differentiation. -/
theorem expPowRule_yields (hl : l.Is x) (hr : r.Is y) (hdl : dl.Is dx) (hdr : dr.Is dy)
    (hx : 0 < x) :
    Yields (expPowRule l r dl dr) (y * x ^ (y - 1) * dx + x ^ y * (dy * Real.log x)) := by
  have hlog : (unary .log l).Is (Real.log x) :=
    UnaryFn.onValue_is (f := .log) hl (Exact.lt_eq.mpr hx)
  have hyields : Yields (expPowRule l r dl dr) (x ^ y * (dy * Real.log x + y * dx / x)) := by
    refine (BinaryFn.onValues_yields (f := .mul) hdr hlog trivial).bind fun logTerm hlogTerm => ?_
    refine (BinaryFn.onValues_yields (f := .mul) hr hdl trivial).bind fun factor hfactor => ?_
    refine (BinaryFn.onValues_yields (f := .div) hfactor hl hx.ne').bind fun baseTerm hbase => ?_
    refine (BinaryFn.onValues_yields (f := .pow) hl hr (Or.inl hx)).bind fun power hpower => ?_
    refine (BinaryFn.onValues_yields (f := .add) hlogTerm hbase trivial).bind fun sum hsum => ?_
    exact BinaryFn.onValues_yields (f := .mul) hpower hsum trivial
  refine hyields.congr ?_
  rw [Real.rpow_sub_one hx.ne']
  ring

/-- The chain rule of a function of two operands. An exponent that stays fixed has the symbol for
zero as its derivative. -/
theorem binaryRule_yields {f : BinaryFn} {fixed : Prop} (hl : l.Is x) (hr : r.Is y) (hdl : dl.Is dx)
    (hdr : dr.Is dy) (hfixed : fixed → dr.isZero = true) (h : f.RegularAt fixed x y) :
    Yields (binaryRule f l r dl dr) (f.slope x y dx dy) := by
  have hneg : (unary .neg l).Is (-x) := UnaryFn.onValue_is (f := .neg) hl rfl
  have hsquare {v : Value ℝ} {z : ℝ} (hv : v.Is z) : (unary .square v).Is (z * z) :=
    UnaryFn.onValue_is (f := .square) hv rfl
  cases f with
  | add => exact BinaryFn.onValues_yields (f := .add) hdl hdr trivial
  | sub => exact BinaryFn.onValues_yields (f := .sub) hdl hdr trivial
  | mul =>
    refine (BinaryFn.onValues_yields (f := .mul) hdl hr trivial).bind fun v hv => ?_
    refine (BinaryFn.onValues_yields (f := .mul) hl hdr trivial).bind fun w hw => ?_
    exact BinaryFn.onValues_yields (f := .add) hv hw trivial
  | div =>
    have hne : y * y ≠ 0 := mul_ne_zero h h
    refine (BinaryFn.onValues_yields (f := .mul) hdl hr trivial).bind fun v hv => ?_
    refine (BinaryFn.onValues_yields (f := .mul) hneg hdr trivial).bind fun w hw => ?_
    refine (BinaryFn.onValues_yields (f := .add) hv hw trivial).bind fun numerator hnum => ?_
    exact BinaryFn.onValues_yields (f := .div) hnum (hsquare hr) hne
  | pow =>
    have hrule : binaryRule .pow l r dl dr =
        if dr.isZero then powRule l r dl else expPowRule l r dl dr := rfl
    rw [hrule]
    split_ifs with hzero
    · have hdy : dy = 0 := by
        cases dr with
        | tensor a => exact absurd hzero Bool.false_ne_true
        | symbol c =>
          cases c with
          | zero s => exact hdr.2
          | _ => exact absurd hzero Bool.false_ne_true
      refine (powRule_yields hl hr hdl (h.imp_right fun h => ⟨h.1, h.2.1⟩)).congr ?_
      rw [BinaryFn.slope, hdy, zero_mul, mul_zero, add_zero]
    · have hpos : 0 < x := h.resolve_right fun h => hzero (hfixed h.2.2)
      exact expPowRule_yields hl hr hdl hdr hpos
  | atan2 =>
    have hne : y * y + x * x ≠ 0 := by
      rcases h with hpos | hne
      · nlinarith [mul_self_nonneg x]
      · nlinarith [mul_self_nonneg y, mul_self_pos.mpr hne]
    refine (BinaryFn.onValues_yields (f := .mul) hr hdl trivial).bind fun v hv => ?_
    refine (BinaryFn.onValues_yields (f := .mul) hneg hdr trivial).bind fun w hw => ?_
    refine (BinaryFn.onValues_yields (f := .add) hv hw trivial).bind fun numerator hnum => ?_
    refine (BinaryFn.onValues_yields (f := .add) (hsquare hr) (hsquare hl) trivial).bind
      fun denominator hden => ?_
    exact BinaryFn.onValues_yields (f := .div) hnum hden hne

end Terms

end FormulaCalculus
