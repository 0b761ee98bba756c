import FormulaCalculus.Proofs.Filling.Constants
import FormulaCalculus.Proofs.Scalar.Rounding

/-!
Sums, differences, products and quotients of real constants. The result is real, and it is what the
function gives of the operands' real values up to rounding: no short cut for a symbol changes a
number that is defined.
-/

namespace FormulaCalculus

open Scalar (isNaN)
open LawfulRounding
open ComplexNumber (isReal_ofReal)

variable {α : Type} [Scalar α]

/-- Whether a constant is real and stands for what a function yields. -/
structure BinaryFn.YieldsReal (f : BinaryFn) (x y : α) (e : Constant α) : Prop where
  isReal : e.IsReal
  yields : f.Yields x y e.real

namespace Constant

variable [LawfulRounding α] {c d : Constant α} {m n : Number α} {f : BinaryFn} {s : Shape}
  {x y : α}

omit [LawfulRounding α] in
/-- A real constant that equals what the function gives, unless it is undefined. -/
theorem yieldsReal_of_beq {e : Constant α} (he : e.IsReal)
    (h : isNaN e.real = false → e.real == f.real x y) : f.YieldsReal x y e := by
  refine ⟨he, ?_⟩
  cases hnan : isNaN e.real with
  | true => exact .undefined hnan
  | false => exact .rounds (h hnan)

theorem yieldsReal_nan : f.YieldsReal x y (nan s) := ⟨isReal_ofReal _, .undefined isNaN_nan⟩

omit [LawfulRounding α] in
theorem yieldsReal_zero [LawfulScalar α] (h : f.Absorbs x y) : f.YieldsReal x y (zero s) :=
  ⟨isReal_ofReal _, .absorbs h LawfulScalar.zero_beq_zero⟩

/-- A number that becomes the symbol of its value. -/
theorem ofNumber_real (n : Number α) :
    isNaN (ofNumber n).real ∨ (ofNumber n).real == n.value.re := by
  rcases n.ofNumber_cases with hnumber | ⟨-, hvalue⟩ | ⟨-, -, hnan⟩
  · rw [hnumber]
    exact isNaN_or_beq_self n.value.re
  · exact Or.inr (beq_symm _ _ hvalue)
  · rw [hnan]
    exact Or.inl isNaN_nan

theorem yieldsReal_ofNumber (hn : n.value.isReal = true)
    (h : isNaN n.value.re = false → n.value.re == f.real x y) : f.YieldsReal x y (ofNumber n) :=
  ⟨isReal_ofNumber hn, yields_of_beq (ofNumber_real n) h⟩

theorem yieldsReal_calculated {z : α} (h : isNaN z = false → z == f.real x y) :
    f.YieldsReal x y (calculated z s) :=
  yieldsReal_ofNumber (isReal_ofReal z) h

omit [LawfulRounding α] in
theorem yieldsReal_withShape (hc : c.IsReal) (h : isNaN c.real = false → c.real == f.real x y) :
    f.YieldsReal x y (c.withShape s) := by
  have hvalue : (c.withShape s).value = c.value := value_withShape c s
  apply yieldsReal_of_beq
  · rw [IsReal, hvalue]
    exact hc
  · rw [real, hvalue]
    exact h

theorem yieldsReal_combine {complexOp : ComplexNumber α → ComplexNumber α → ComplexNumber α}
    (hm : m.value.isReal = true) (hn : n.value.isReal = true) :
    f.YieldsReal m.value.re n.value.re (Number.combine f.real complexOp m n s) := by
  have hcombine : Number.combine f.real complexOp m n s =
      ofNumber ⟨.ofReal (f.real m.value.re n.value.re), m.imaginary || n.imaginary, s⟩ := by
    simp only [Number.combine, Number.asReal?, asReal?_of_isReal hm, asReal?_of_isReal hn]
  rw [hcombine]
  exact yieldsReal_ofNumber (isReal_ofReal _) (beq_refl _)

theorem yieldsReal_addIn (hc : c.IsReal) (hd : d.IsReal) :
    BinaryFn.add.YieldsReal c.real d.real (c.addIn s d) := by
  have hzero (r : Shape) (hd : d.IsReal) :
      BinaryFn.add.YieldsReal (zero r : Constant α).real d.real (d.withShape s) :=
    yieldsReal_withShape hd fun h => beq_symm _ _ (zero_add h)
  have hzeroRight (r : Shape) (hc : c.IsReal) :
      BinaryFn.add.YieldsReal c.real (zero r : Constant α).real (c.withShape s) :=
    yieldsReal_withShape hc fun h => beq_symm _ _ (add_zero _ h)
  -- One and minus one are added to a number on its right, and minus one as a difference.
  have hsub (x : α) : x - Scalar.one = x + -Scalar.one := sub_eq x Scalar.one isNaN_one
  cases c with
  | nan r => exact yieldsReal_nan
  | zero r =>
    cases d with
    | nan t => exact yieldsReal_nan
    | zero t | unity t | negUnity t | number n => exact hzero r hd
  | unity r =>
    cases d with
    | nan t => exact yieldsReal_nan
    | zero t => exact hzeroRight t hc
    | unity t => exact yieldsReal_calculated (beq_refl _)
    | negUnity t =>
      exact yieldsReal_of_beq (isReal_ofReal _) fun _ => beq_symm _ _ one_add_negOne
    | number n => exact yieldsReal_ofNumber hd (add_comm _ _)
  | negUnity r =>
    cases d with
    | nan t => exact yieldsReal_nan
    | zero t => exact hzeroRight t hc
    | unity t =>
      refine yieldsReal_of_beq (isReal_ofReal _) fun _ => beq_symm _ _ ?_
      have hcomm := add_comm (Scalar.one : α) (-Scalar.one) (isNaN_of_beq _ _ one_add_negOne)
      exact beq_trans _ _ _ (beq_symm _ _ hcomm) one_add_negOne
    | negUnity t => exact yieldsReal_calculated fun _ => beq_symm _ _ negOne_add_negOne
    | number n =>
      refine yieldsReal_ofNumber hd fun h => ?_
      change isNaN (n.value.re - Scalar.one) = false at h
      change n.value.re - Scalar.one == -Scalar.one + n.value.re
      rw [hsub] at h ⊢
      exact add_comm _ _ h
  | number m =>
    cases d with
    | nan t => exact yieldsReal_nan
    | zero t => exact hzeroRight t hc
    | unity t => exact yieldsReal_ofNumber hc (beq_refl _)
    | negUnity t =>
      refine yieldsReal_ofNumber hc fun h => ?_
      change m.value.re - Scalar.one == m.value.re + -Scalar.one
      rw [← hsub]
      exact beq_refl _ h
    | number n => exact yieldsReal_combine hc hd

/-- The opposite stays the opposite when it becomes a symbol. -/
theorem negIn_real (d : Constant α) (s : Shape) :
    isNaN (d.negIn s).real ∨ (d.negIn s).real == -d.real := by
  cases d with
  | zero r => exact Or.inr (beq_symm _ _ neg_zero_beq)
  | unity r => exact Or.inr (beq_refl _ isNaN_negOne)
  | negUnity r =>
    right
    change (Scalar.one : α) == - -Scalar.one
    rw [LawfulScalar.neg_neg]
    exact beq_refl _ isNaN_one
  | nan r => exact Or.inl isNaN_nan
  | number n => exact ofNumber_real ⟨-n.value, n.imaginary, s⟩

theorem yieldsReal_subIn (hc : c.IsReal) (hd : d.IsReal) :
    BinaryFn.sub.YieldsReal c.real d.real (c.subIn s d) := by
  have hsum : BinaryFn.sub.YieldsReal c.real d.real (c.addIn s (d.negIn s)) := by
    obtain ⟨hreal, hyields⟩ := yieldsReal_addIn (s := s) hc (isReal_negIn (s := s) hd)
    refine ⟨hreal, ?_⟩
    cases hyields with
    | undefined h => exact .undefined h
    | absorbs h => exact h.elim
    | rounds h =>
      -- the sum is a number, so the opposite is one
      have hnum := isNaN_of_beq_right h
      obtain ⟨hcnum, hdnum⟩ := isNaN_real (f := .add) (by decide) hnum
      have hopposite := beq_of_not_isNaN (negIn_real d s) hdnum
      have hdefined : isNaN d.real = false := by
        rw [← LawfulScalar.isNaN_neg]
        exact isNaN_of_beq_right hopposite
      have hcongr := add_congr _ _ _ _ (beq_refl _ hcnum) hopposite hnum
      refine .rounds ?_
      change _ == c.real - d.real
      rw [sub_eq _ _ hdefined]
      exact beq_trans _ _ _ h hcongr
  cases c with
  | nan r => exact yieldsReal_nan
  | number m =>
    cases d with
    | nan t => exact yieldsReal_nan
    | number n => exact yieldsReal_combine hc hd
    | _ => exact hsum
  | _ =>
    cases d with
    | nan t => exact yieldsReal_nan
    | _ => exact hsum

theorem yieldsReal_mulIn (hc : c.IsReal) (hd : d.IsReal) :
    BinaryFn.mul.YieldsReal c.real d.real (c.mulIn s d) := by
  have hzeroLeft (h : c.real == Scalar.zero) :
      BinaryFn.mul.YieldsReal c.real d.real (zero s : Constant α) := yieldsReal_zero (Or.inl h)
  have hzeroRight (h : d.real == Scalar.zero) :
      BinaryFn.mul.YieldsReal c.real d.real (zero s : Constant α) := yieldsReal_zero (Or.inr h)
  -- every symbol has its own law; only two numbers are multiplied
  cases c with
  | nan r => exact yieldsReal_nan
  | zero r =>
    cases d with
    | nan t => exact yieldsReal_nan
    | zero t | unity t | negUnity t | number n => exact hzeroLeft LawfulScalar.zero_beq_zero
  | unity r =>
    cases d with
    | nan t => exact yieldsReal_nan
    | zero t => exact hzeroRight LawfulScalar.zero_beq_zero
    | unity t | negUnity t | number n =>
      exact yieldsReal_withShape hd fun h => beq_symm _ _ (one_mul h)
  | negUnity r =>
    cases d with
    | nan t => exact yieldsReal_nan
    | zero t => exact hzeroRight LawfulScalar.zero_beq_zero
    | unity t => exact yieldsReal_withShape hc fun h => beq_symm _ _ (mul_one _ h)
    | negUnity t =>
      refine yieldsReal_of_beq (isReal_ofReal _) fun _ => ?_
      have hproduct := mul_negOne (-Scalar.one : α) isNaN_negOne
      rw [LawfulScalar.neg_neg] at hproduct
      exact beq_symm _ _ hproduct
    | number n =>
      refine yieldsReal_ofNumber ((ComplexNumber.isReal_neg _).trans hd) fun h => ?_
      exact beq_symm _ _ (negOne_mul ((LawfulScalar.isNaN_neg _).symm.trans h))
  | number m =>
    cases d with
    | nan t => exact yieldsReal_nan
    | zero t => exact hzeroRight LawfulScalar.zero_beq_zero
    | unity t => exact yieldsReal_withShape hc fun h => beq_symm _ _ (mul_one _ h)
    | negUnity t =>
      refine yieldsReal_ofNumber ((ComplexNumber.isReal_neg _).trans hc) fun h => ?_
      exact beq_symm _ _ (mul_negOne _ ((LawfulScalar.isNaN_neg _).symm.trans h))
    | number n => exact yieldsReal_combine hc hd

/-- Division by minus one gives the opposite. -/
theorem yieldsReal_negIn (hc : c.IsReal) :
    BinaryFn.div.YieldsReal c.real (-Scalar.one) (c.negIn s) := by
  refine ⟨isReal_negIn hc, yields_of_beq (negIn_real c s) fun h => ?_⟩
  exact beq_symm _ _ (div_negOne _ ((LawfulScalar.isNaN_neg _).symm.trans h))

theorem yieldsReal_divIn (hc : c.IsReal) (hd : d.IsReal) :
    BinaryFn.div.YieldsReal c.real d.real (c.divIn s d) := by
  unfold divIn
  split_ifs with hvalue
  · exact yieldsReal_nan
  have hunity (t : Shape) :
      BinaryFn.div.YieldsReal c.real (unity t : Constant α).real (c.withShape s) :=
    yieldsReal_withShape hc fun h => beq_symm _ _ (div_one _ h)
  cases c with
  | nan r => exact yieldsReal_nan
  | zero r =>
    cases d with
    | nan t => exact yieldsReal_nan
    | zero t | unity t | negUnity t | number n =>
      exact yieldsReal_zero LawfulScalar.zero_beq_zero
  | unity r | negUnity r =>
    cases d with
    | nan t => exact yieldsReal_nan
    | zero t => exact yieldsReal_nan
    | unity t => exact hunity t
    | negUnity t => exact yieldsReal_negIn hc
    | number n => exact yieldsReal_combine (m := .ofReal _) (isReal_ofReal _) hd
  | number m =>
    cases d with
    | nan t => exact yieldsReal_nan
    | zero t => exact yieldsReal_nan
    | unity t => exact hunity t
    | negUnity t => exact yieldsReal_negIn hc
    | number n => exact yieldsReal_combine hc hd

end Constant

/-- A function of two real constants. -/
theorem BinaryFn.yieldsReal_onConstants [LawfulRounding α] {f : BinaryFn} (hf : f.IsArithmetic)
    {c d e : Constant α} (hc : c.IsReal) (hd : d.IsReal) (h : f.onConstants c d = .ok e) :
    f.YieldsReal c.real d.real e := by
  obtain ⟨s, -, h⟩ := exists_of_bind_eq_ok h
  cases f with
  | add =>
    obtain rfl := Except.ok.inj h
    exact Constant.yieldsReal_addIn hc hd
  | sub =>
    obtain rfl := Except.ok.inj h
    exact Constant.yieldsReal_subIn hc hd
  | mul =>
    obtain rfl := Except.ok.inj h
    exact Constant.yieldsReal_mulIn hc hd
  | div =>
    obtain rfl := Except.ok.inj h
    exact Constant.yieldsReal_divIn hc hd
  | pow => exact absurd rfl hf.1
  | atan2 => exact absurd rfl hf.2

end FormulaCalculus
