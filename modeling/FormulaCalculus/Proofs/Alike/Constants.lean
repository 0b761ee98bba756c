import FormulaCalculus.Proofs.Scalar.Rounding

/-!
Constants that are alike: of one kind, shape and flag, with parts that compare equal or are both
undefined. So the signs of zeros may differ. Sums, differences, products and opposites of alike
constants are alike, and so are quotients by the same divisor.
-/

namespace FormulaCalculus

open Scalar (isNaN)
open LawfulRounding

variable {α : Type} [Scalar α]

/-- Whether two numbers compare equal or are both undefined. -/
def Scalar.Alike (x y : α) : Prop := x == y ∨ isNaN x = true ∧ isNaN y = true

/-- Whether two complex numbers are alike in both parts. -/
structure ComplexNumber.Alike (z w : ComplexNumber α) : Prop where
  re : Scalar.Alike z.re w.re
  im : Scalar.Alike z.im w.im

/-- Whether two constants differ in nothing but the parts of a number, which are alike. -/
inductive Constant.Alike : Constant α → Constant α → Prop
  | zero (s : Shape) : Alike (.zero s) (.zero s)
  | unity (s : Shape) : Alike (.unity s) (.unity s)
  | negUnity (s : Shape) : Alike (.negUnity s) (.negUnity s)
  | nan (s : Shape) : Alike (.nan s) (.nan s)
  | number {z w : ComplexNumber α} (flag : Bool) (s : Shape) (h : z.Alike w) :
      Alike (.number ⟨z, flag, s⟩) (.number ⟨w, flag, s⟩)

variable [LawfulRounding α]

namespace Scalar.Alike

variable {x x' y y' : α}

theorem refl (x : α) : Alike x x := by
  cases h : isNaN x with
  | true => exact Or.inr ⟨h, h⟩
  | false => exact Or.inl (beq_refl x h)

theorem symm (h : Alike x y) : Alike y x := h.imp (beq_symm x y) And.symm

/-- What equals the other number as soon as either is defined is alike. -/
theorem of_beq (h : isNaN x = false → x == y) (h' : isNaN y = false → y == x) : Alike x y := by
  cases hx : isNaN x with
  | false => exact Or.inl (h hx)
  | true =>
    cases hy : isNaN y with
    | false => exact Or.inl (beq_symm _ _ (h' hy))
    | true => exact Or.inr ⟨hx, hy⟩

omit [LawfulRounding α] in
theorem beq (h : Alike x y) (hx : isNaN x = false) : x == y := by
  rcases h with h | ⟨hnan, -⟩
  · exact h
  · rw [hx] at hnan
    nomatch hnan

theorem isNaN_eq (h : Alike x y) : isNaN x = isNaN y := by
  rcases h with h | ⟨hx, hy⟩
  · rw [isNaN_of_beq _ _ h, isNaN_of_beq_right h]
  · rw [hx, hy]

/-- Alike numbers equal the same numbers. -/
theorem beq_eq (h : Alike x y) (k : α) : (x == k) = (y == k) := by
  have hle {x y : α} (h : Alike x y) (hk : x == k) : y == k :=
    beq_trans _ _ _ (beq_symm _ _ (h.beq (isNaN_of_beq _ _ hk))) hk
  rw [Bool.eq_iff_iff]
  exact ⟨hle h, hle h.symm⟩

theorem neg (h : Alike x y) : Alike (-x) (-y) := by
  rcases h with h | ⟨hx, hy⟩
  · exact Or.inl (neg_congr h)
  · right
    rw [LawfulScalar.isNaN_neg, LawfulScalar.isNaN_neg]
    exact ⟨hx, hy⟩

/-- Functions of alike numbers are alike; divisors have to be the same. -/
theorem real {f : BinaryFn} (hf : f.IsArithmetic) (hx : Alike x x') (hy : Alike y y')
    (hdiv : f = .div → y = y') : Alike (f.real x y) (f.real x' y') := by
  refine of_beq (fun h => ?_) fun h => ?_
  · obtain ⟨hxnum, hynum⟩ := isNaN_real hf h
    exact real_congr hf (hx.beq hxnum) (hy.beq hynum) hdiv h
  · obtain ⟨hxnum, hynum⟩ := isNaN_real hf h
    exact real_congr hf (hx.symm.beq hxnum) (hy.symm.beq hynum) (fun hf => (hdiv hf).symm) h

theorem add (hx : Alike x x') (hy : Alike y y') : Alike (x + y) (x' + y') :=
  hx.real (f := .add) (by decide) hy fun h => nomatch h

theorem sub (hx : Alike x x') (hy : Alike y y') : Alike (x - y) (x' - y') :=
  hx.real (f := .sub) (by decide) hy fun h => nomatch h

theorem mul (hx : Alike x x') (hy : Alike y y') : Alike (x * y) (x' * y') :=
  hx.real (f := .mul) (by decide) hy fun h => nomatch h

theorem div (hx : Alike x x') (y : α) : Alike (x / y) (x' / y) :=
  hx.real (f := .div) (by decide) (refl y) fun _ => rfl

end Scalar.Alike

namespace ComplexNumber.Alike

variable {z z' w w' : ComplexNumber α}

theorem refl (z : ComplexNumber α) : z.Alike z := ⟨.refl z.re, .refl z.im⟩

theorem ofReal {x y : α} (h : Scalar.Alike x y) : (ofReal x).Alike (ofReal y) := ⟨h, .refl _⟩

theorem isReal (h : z.Alike w) : z.isReal = w.isReal := h.im.beq_eq _

theorem neg (h : z.Alike w) : (-z).Alike (-w) := ⟨h.re.neg, h.im.neg⟩

theorem add (hz : z.Alike z') (hw : w.Alike w') : (z + w).Alike (z' + w') :=
  ⟨hz.re.add hw.re, hz.im.add hw.im⟩

theorem sub (hz : z.Alike z') (hw : w.Alike w') : (z - w).Alike (z' - w') :=
  ⟨hz.re.sub hw.re, hz.im.sub hw.im⟩

theorem mul (hz : z.Alike z') (hw : w.Alike w') : (z * w).Alike (z' * w') :=
  ⟨(hz.re.mul hw.re).sub (hz.im.mul hw.im), (hz.re.mul hw.im).add (hz.im.mul hw.re)⟩

theorem div (hz : z.Alike z') (w : ComplexNumber α) : (z / w).Alike (z' / w) :=
  ⟨((hz.re.mul (.refl w.re)).add (hz.im.mul (.refl w.im))).div _,
    ((hz.im.mul (.refl w.re)).sub (hz.re.mul (.refl w.im))).div _⟩

end ComplexNumber.Alike

namespace Constant.Alike

variable {c c' d d' : Constant α} {z z' w w' : ComplexNumber α}

theorem refl (c : Constant α) : c.Alike c := by
  cases c with
  | zero s => exact .zero s
  | unity s => exact .unity s
  | negUnity s => exact .negUnity s
  | nan s => exact .nan s
  | number n => exact .number n.imaginary n.shape (.refl n.value)

omit [LawfulRounding α] in
theorem shape (h : c.Alike d) : c.shape = d.shape := by
  cases h <;> rfl

theorem value (h : c.Alike d) : c.value.Alike d.value := by
  cases h with
  | number flag s h => exact h
  | _ => exact .refl _

/-- Alike numbers become symbols alike. -/
theorem ofNumber (flag : Bool) (s : Shape) (h : z.Alike w) :
    (ofNumber ⟨z, flag, s⟩).Alike (ofNumber ⟨w, flag, s⟩) := by
  unfold Constant.ofNumber
  simp only [h.isReal, h.re.beq_eq, h.re.isNaN_eq]
  split_ifs
  · exact .number flag s h
  · exact .zero s
  · exact .unity s
  · exact .negUnity s
  · exact .nan s
  · exact .number flag s h

theorem negIn (h : c.Alike d) (s : Shape) : (c.negIn s).Alike (d.negIn s) := by
  cases h with
  | zero r => exact .zero s
  | unity r => exact .negUnity s
  | negUnity r => exact .unity s
  | nan r => exact .nan s
  | number flag r h => exact ofNumber flag s h.neg

/-- Two numbers are combined alike, on the real line or off it. -/
theorem combine {realOp realOp' : α → α → α}
    {complexOp complexOp' : ComplexNumber α → ComplexNumber α → ComplexNumber α}
    (flag flag' : Bool) (r t s : Shape) (hz : z.isReal = z'.isReal) (hw : w.isReal = w'.isReal)
    (hreal : Scalar.Alike (realOp z.re w.re) (realOp' z'.re w'.re))
    (hcomplex : (complexOp z w).Alike (complexOp' z' w')) :
    (Number.combine realOp complexOp ⟨z, flag, r⟩ ⟨w, flag', t⟩ s).Alike
      (Number.combine realOp' complexOp' ⟨z', flag, r⟩ ⟨w', flag', t⟩ s) := by
  simp only [Number.combine, Number.asReal?, ComplexNumber.asReal?, ← hz, ← hw]
  apply ofNumber
  cases z.isReal with
  | false => exact hcomplex
  | true =>
    cases w.isReal with
    | false => exact hcomplex
    | true => exact .ofReal hreal

theorem addIn (hc : c.Alike c') (hd : d.Alike d') (s : Shape) :
    (c.addIn s d).Alike (c'.addIn s d') := by
  cases hc with
  | nan r => exact .nan s
  | zero r =>
    cases hd with
    | nan t => exact .nan s
    | number flag t h => exact .number flag s h
    | _ => exact refl _
  | unity r =>
    cases hd with
    | nan t => exact .nan s
    | number flag t h => exact ofNumber flag s ⟨h.re.add (.refl _), h.im⟩
    | _ => exact refl _
  | negUnity r =>
    cases hd with
    | nan t => exact .nan s
    | number flag t h => exact ofNumber flag s ⟨h.re.sub (.refl _), h.im⟩
    | _ => exact refl _
  | number flag r h =>
    cases hd with
    | nan t => exact .nan s
    | zero t => exact .number flag s h
    | unity t => exact ofNumber flag s ⟨h.re.add (.refl _), h.im⟩
    | negUnity t => exact ofNumber flag s ⟨h.re.sub (.refl _), h.im⟩
    | number flag' t h' =>
      exact combine flag flag' r t s h.isReal h'.isReal (h.re.add h'.re) (h.add h')

theorem subIn (hc : c.Alike c') (hd : d.Alike d') (s : Shape) :
    (c.subIn s d).Alike (c'.subIn s d') := by
  have hsum := hc.addIn (hd.negIn s) s
  cases hc with
  | nan r => exact .nan s
  | number flag r h =>
    cases hd with
    | nan t => exact .nan s
    | number flag' t h' =>
      exact combine flag flag' r t s h.isReal h'.isReal (h.re.sub h'.re) (h.sub h')
    | _ => exact hsum
  | _ =>
    cases hd with
    | nan t => exact .nan s
    | _ => exact hsum

theorem mulIn (hc : c.Alike c') (hd : d.Alike d') (s : Shape) :
    (c.mulIn s d).Alike (c'.mulIn s d') := by
  cases hc with
  | nan r => exact .nan s
  | zero r => cases hd <;> exact refl _
  | unity r =>
    cases hd with
    | number flag t h => exact .number flag s h
    | _ => exact refl _
  | negUnity r =>
    cases hd with
    | number flag t h => exact ofNumber flag s h.neg
    | _ => exact refl _
  | number flag r h =>
    cases hd with
    | nan t => exact .nan s
    | zero t => exact .zero s
    | unity t => exact .number flag s h
    | negUnity t => exact ofNumber flag s h.neg
    | number flag' t h' =>
      exact combine flag flag' r t s h.isReal h'.isReal (h.re.mul h'.re) (h.mul h')

theorem divIn (hc : c.Alike c') (d : Constant α) (s : Shape) :
    (c.divIn s d).Alike (c'.divIn s d) := by
  unfold Constant.divIn
  split_ifs
  · exact .nan s
  cases hc with
  | number flag r h =>
    cases d with
    | zero t | nan t => exact .nan s
    | unity t => exact .number flag s h
    | negUnity t => exact ofNumber flag s h.neg
    | number n =>
      exact combine flag n.imaginary r n.shape s h.isReal rfl (h.re.div _) (h.div _)
  | _ => exact refl _

/-- The function on alike constants. -/
theorem onConstants {f : BinaryFn} (hf : f.IsArithmetic) (hc : c.Alike c') (hd : d.Alike d')
    (hdiv : f = .div → d = d') {e : Constant α} (h : f.onConstants c d = .ok e) :
    ∃ e', f.onConstants c' d' = .ok e' ∧ e.Alike e' := by
  obtain ⟨s, hs, h⟩ := exists_of_bind_eq_ok h
  have hs' : Tensor.joinShapes c'.shape d'.shape = (.ok s : Except (AlgebraError α) Shape) := by
    rw [← hc.shape, ← hd.shape, hs]
  unfold BinaryFn.onConstants
  rw [hs']
  cases f with
  | add => exact ⟨_, rfl, Except.ok.inj h ▸ hc.addIn hd s⟩
  | sub => exact ⟨_, rfl, Except.ok.inj h ▸ hc.subIn hd s⟩
  | mul => exact ⟨_, rfl, Except.ok.inj h ▸ hc.mulIn hd s⟩
  | div =>
    obtain rfl := hdiv rfl
    exact ⟨_, rfl, Except.ok.inj h ▸ hc.divIn d s⟩
  | pow => exact absurd rfl hf.1
  | atan2 => exact absurd rfl hf.2

end Constant.Alike

end FormulaCalculus
