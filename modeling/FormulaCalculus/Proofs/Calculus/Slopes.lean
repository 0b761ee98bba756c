import FormulaCalculus.Proofs.Calculus.Values

/-!
The real functions that a formula applies, where they are differentiable, and their slopes there.
-/

namespace FormulaCalculus

namespace UnaryFn

/-- The arguments at which a function is regular. -/
def RegularAt : UnaryFn → ℝ → Prop
  | abs => fun x => x ≠ 0
  | sqrt | log | log10 => fun x => 0 < x
  | tan => fun x => Real.cos x ≠ 0
  | asin | acos | atanh => fun x => -1 < x ∧ x < 1
  | acosh => fun x => 1 < x
  | _ => fun _ => True

/-- The derivative of a function. -/
noncomputable def slope : UnaryFn → ℝ → ℝ
  | neg, _ => -1
  | abs, x => x / |x|
  | sqrt, x => 1 / 2 / √x
  | square, x => 2 * x
  | exp, x => Real.exp x
  | log, x => 1 / x
  | log10, x => 1 / (x * Scalar.ln10)
  | sin, x => Real.cos x
  | cos, x => -Real.sin x
  | tan, x => 1 / (Real.cos x * Real.cos x)
  | asin, x => 1 / √(1 - x * x)
  | acos, x => -1 / √(1 - x * x)
  | atan, x => 1 / (1 + x * x)
  | sinh, x => Real.cosh x
  | cosh, x => Real.sinh x
  | tanh, x => 1 / (Real.cosh x * Real.cosh x)
  | asinh, x => 1 / √(x * x + 1)
  | acosh, x => 1 / √(x * x - 1)
  | atanh, x => 1 / (1 - x * x)

variable {f : UnaryFn} {x : ℝ}

theorem hasDerivAt_artanh (hlow : -1 < x) (hhigh : x < 1) :
    HasDerivAt Real.artanh (1 / (1 - x * x)) x := by
  have hplus : 0 < 1 + x := by linarith
  have hminus : 0 < 1 - x := by linarith
  have hquotient : HasDerivAt (fun y : ℝ => (1 + y) / (1 - y))
      ((1 * (1 - x) - (1 + x) * -1) / (1 - x) ^ 2) x :=
    ((hasDerivAt_id x).const_add 1).div ((hasDerivAt_id x).const_sub 1) hminus.ne'
  have hpos : 0 < (1 + x) / (1 - x) := div_pos hplus hminus
  -- The function is the logarithm of the root of this quotient.
  have hroot := hquotient.sqrt hpos.ne'
  have hlog := hroot.log (Real.sqrt_pos.mpr hpos).ne'
  refine hlog.congr_deriv ?_
  have hsq := Real.mul_self_sqrt hpos.le
  have hprod : 1 - x * x = (1 - x) * (1 + x) := by ring
  rw [div_div, mul_assoc, hsq, hprod]
  field_simp
  ring

theorem hasDerivAt_tanh (x : ℝ) :
    HasDerivAt Real.tanh (1 / (Real.cosh x * Real.cosh x)) x := by
  have hcosh : Real.cosh x ≠ 0 := (Real.cosh_pos x).ne'
  have hquotient := (Real.hasDerivAt_sinh x).div (Real.hasDerivAt_cosh x) hcosh
  have htanh : Real.tanh = Real.sinh / Real.cosh := by
    funext y
    exact Real.tanh_eq_sinh_div_cosh y
  rw [htanh]
  refine hquotient.congr_deriv ?_
  have hone := Real.cosh_sq_sub_sinh_sq x
  rw [sq, sq] at hone
  rw [hone, sq]

theorem sign_eq_div_abs {x : ℝ} (hx : x ≠ 0) : ((SignType.sign x : SignType) : ℝ) = x / |x| := by
  rw [eq_div_iff (abs_ne_zero.mpr hx)]
  exact sign_mul_abs x

/-- Every function has its slope at the arguments where it is regular. -/
theorem hasDerivAt_real (h : f.RegularAt x) : HasDerivAt f.real (f.slope x) x := by
  cases f with
  | neg => exact (hasDerivAt_id x).neg
  | abs =>
    have hx : x ≠ 0 := h
    exact (hasDerivAt_abs hx).congr_deriv (sign_eq_div_abs hx)
  | sqrt =>
    refine (Real.hasDerivAt_sqrt (ne_of_gt h)).congr_deriv ?_
    simp only [slope, div_div]
  | square =>
    refine ((hasDerivAt_id' x).mul (hasDerivAt_id' x)).congr_deriv ?_
    simp only [slope]
    ring
  | exp => exact Real.hasDerivAt_exp x
  | log => exact (Real.hasDerivAt_log (ne_of_gt h)).congr_deriv (one_div x).symm
  | log10 =>
    refine ((Real.hasDerivAt_log (ne_of_gt h)).div_const (Real.log 10)).congr_deriv ?_
    simp only [slope, Exact.ln10_eq, ← one_div, div_div]
  | sin => exact Real.hasDerivAt_sin x
  | cos => exact Real.hasDerivAt_cos x
  | tan =>
    refine (Real.hasDerivAt_tan h).congr_deriv ?_
    simp only [slope, sq]
  | asin =>
    refine (Real.hasDerivAt_arcsin (ne_of_gt h.1) (ne_of_lt h.2)).congr_deriv ?_
    simp only [slope, sq]
  | acos =>
    refine (Real.hasDerivAt_arccos (ne_of_gt h.1) (ne_of_lt h.2)).congr_deriv ?_
    simp only [slope, sq, neg_div]
  | atan =>
    refine (Real.hasDerivAt_arctan x).congr_deriv ?_
    simp only [slope, sq]
  | sinh => exact Real.hasDerivAt_sinh x
  | cosh => exact Real.hasDerivAt_cosh x
  | tanh => exact hasDerivAt_tanh x
  | asinh =>
    refine (Real.hasDerivAt_arsinh x).congr_deriv ?_
    simp only [slope, sq, one_div, add_comm]
  | acosh =>
    have hx : x ∈ Set.Ioi 1 := h
    refine (Real.hasDerivAt_arcosh hx).congr_deriv ?_
    simp only [slope, sq, one_div]
  | atanh => exact hasDerivAt_artanh h.1 h.2

/-- A function is defined around every argument where it is regular. -/
theorem eventually_inDomain (h : f.RegularAt x) : ∀ᶠ y in nhds x, f.inDomain y = true := by
  have habs {a : ℝ} (ha : -1 < a ∧ a < 1) : |a| < 1 := abs_lt.mpr ha
  cases f with
  | sqrt =>
    have hx : 0 < x := h
    filter_upwards [lt_mem_nhds hx] with y hy
    exact Exact.le_eq.mpr hy.le
  | log | log10 =>
    have hx : 0 < x := h
    filter_upwards [lt_mem_nhds hx] with y hy
    exact Exact.lt_eq.mpr hy
  | asin | acos =>
    filter_upwards [Ioo_mem_nhds h.1 h.2] with y hy
    exact Exact.le_eq.mpr (habs hy).le
  | atanh =>
    filter_upwards [Ioo_mem_nhds h.1 h.2] with y hy
    exact Exact.lt_eq.mpr (habs hy)
  | acosh =>
    have hx : 1 < x := h
    filter_upwards [lt_mem_nhds hx] with y hy
    exact Exact.le_eq.mpr hy.le
  | _ => exact Filter.Eventually.of_forall fun _ => rfl

theorem inDomain_of_regularAt (h : f.RegularAt x) : f.inDomain x = true :=
  (eventually_inDomain h).self_of_nhds

end UnaryFn

namespace BinaryFn

/-- The operands at which a function is regular. The branch cut of the angle is the part of the
abscissa that is not positive. A power whose exponent stays fixed may have a negative base if the
exponent is a whole number. -/
def RegularAt (fixed : Prop) : BinaryFn → ℝ → ℝ → Prop
  | div => fun _ y => y ≠ 0
  | pow => fun x y => 0 < x ∨ x ≠ 0 ∧ (∃ k : ℤ, y = k) ∧ fixed
  | atan2 => fun y x => 0 < x ∨ y ≠ 0
  | _ => fun _ _ => True

/-- The derivative of a function along operands with the given derivatives. -/
noncomputable def slope : BinaryFn → ℝ → ℝ → ℝ → ℝ → ℝ
  | add, _, _, dx, dy => dx + dy
  | sub, _, _, dx, dy => dx - dy
  | mul, x, y, dx, dy => dx * y + x * dy
  | div, x, y, dx, dy => (dx * y + -x * dy) / (y * y)
  | pow, x, y, dx, dy => y * x ^ (y - 1) * dx + x ^ y * (dy * Real.log x)
  | atan2, y, x, dy, dx => (x * dy + -y * dx) / (x * x + y * y)

theorem slope_zero (f : BinaryFn) (x y : ℝ) : f.slope x y 0 0 = 0 := by
  cases f <;> simp [slope]

/-- The angle of a moving point turns by the determinant of place and speed over the squared
distance. -/
theorem hasDerivAt_arg {x y : ℝ → ℝ} {dx dy t : ℝ} (hx : HasDerivAt x dx t)
    (hy : HasDerivAt y dy t) (h : 0 < x t ∨ y t ≠ 0) :
    HasDerivAt (fun s => Complex.arg ⟨x s, y s⟩)
      ((x t * dy + -y t * dx) / (x t * x t + y t * y t)) t := by
  have hpoint : HasDerivAt (fun s => (⟨x s, y s⟩ : ℂ)) ⟨dx, dy⟩ t := by
    have hsum := (hx.ofReal_comp).add ((hy.ofReal_comp).mul_const Complex.I)
    refine (hsum.congr_deriv ?_).congr_of_eventuallyEq (Filter.Eventually.of_forall fun s => ?_)
    · exact Complex.ext (by simp) (by simp)
    · exact Complex.ext (by simp) (by simp)
  -- The angle is the imaginary part of the logarithm, which is smooth off the cut.
  have hplane : (⟨x t, y t⟩ : ℂ) ∈ Complex.slitPlane := h
  have hlog := hpoint.clog_real hplane
  have him : HasDerivAt (fun s => (Complex.log ⟨x s, y s⟩).im)
      ((⟨dx, dy⟩ : ℂ) / ⟨x t, y t⟩).im t :=
    Complex.imCLM.hasFDerivAt.comp_hasDerivAt t hlog
  refine (him.congr_deriv ?_).congr_of_eventuallyEq (Filter.Eventually.of_forall fun s => ?_)
  · rw [Complex.div_im, Complex.normSq_mk]
    ring
  · exact (Complex.log_im _).symm

variable {f : BinaryFn} {u v : ℝ → ℝ} {du dv t : ℝ} {fixed : Prop}

/-- Every function has its slope along operands at which it is regular. -/
theorem hasDerivAt_real (hu : HasDerivAt u du t) (hv : HasDerivAt v dv t)
    (hfixed : fixed → dv = 0 ∧ ∀ s, v s = v t) (h : f.RegularAt fixed (u t) (v t)) :
    HasDerivAt (fun s => f.real (u s) (v s)) (f.slope (u t) (v t) du dv) t := by
  cases f with
  | add => exact hu.add hv
  | sub => exact hu.sub hv
  | mul => exact hu.mul hv
  | div =>
    refine (hu.div hv h).congr_deriv ?_
    simp only [slope, sq, neg_mul, sub_eq_add_neg]
  | pow =>
    rcases h with hpos | ⟨hne, -, hfix⟩
    · refine (hu.rpow hv hpos).congr_deriv ?_
      simp only [slope]
      ring
    · obtain ⟨rfl, hconst⟩ := hfixed hfix
      have hpow := hu.rpow_const (p := v t) (Or.inl hne)
      refine (hpow.congr_deriv ?_).congr_of_eventuallyEq (Filter.Eventually.of_forall fun s => ?_)
      · simp only [slope]
        ring
      · have hs : BinaryFn.real .pow (u s) (v s) = u s ^ v s := rfl
        exact hs.trans (by rw [hconst s])
  | atan2 => exact hasDerivAt_arg hv hu h

/-- A function is defined around operands at which it is regular. -/
theorem eventually_defined (hu : HasDerivAt u du t) (hv : HasDerivAt v dv t)
    (hfixed : fixed → dv = 0 ∧ ∀ s, v s = v t) (h : f.RegularAt fixed (u t) (v t)) :
    ∀ᶠ s in nhds t, f.Defined (u s) (v s) := by
  cases f with
  | div => exact hv.continuousAt.eventually_ne h
  | pow =>
    rcases h with hpos | ⟨hne, ⟨k, hk⟩, hfix⟩
    · filter_upwards [hu.continuousAt.eventually_const_lt hpos] with s hs
      exact Or.inl hs
    · filter_upwards [hu.continuousAt.eventually_ne hne] with s hs
      exact Or.inr ⟨hs, k, ((hfixed hfix).2 s).trans hk⟩
  | _ => exact Filter.Eventually.of_forall fun _ => trivial

end BinaryFn

end FormulaCalculus
