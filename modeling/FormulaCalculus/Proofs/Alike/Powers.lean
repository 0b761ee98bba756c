import FormulaCalculus.Proofs.Alike.Values
import FormulaCalculus.Proofs.Scalar.DoubleLaws

/-!
Powers with alike exponents. The power of a complex number is an exponential, so powers whose
exponents differ in the sign of the zero that is the imaginary part are alike if exponentials of
alike numbers are. Those of machine numbers are, if the exponential, the sine and the cosine do not
tell the two zeros apart.
-/

namespace FormulaCalculus

/-- Whether alike complex numbers have alike exponentials. -/
def ComplexNumber.ExpBlind (α : Type) [Scalar α] : Prop :=
  ∀ z w : ComplexNumber α, z.Alike w → z.exp.Alike w.exp

section Powers

variable {α : Type} [Scalar α] [LawfulRounding α] {x y y' : α} {flag : Bool} {t : Shape}

/-- A power does not depend on the sign of the zero that is the imaginary part of its exponent. -/
theorem Number.pow_alike (hexp : ComplexNumber.ExpBlind α) (hx : (x == Scalar.zero) = false)
    (hy : Scalar.Alike y y') (m : Number α) (s : Shape) :
    (m.pow ⟨⟨x, y⟩, flag, t⟩ s).Alike (m.pow ⟨⟨x, y'⟩, flag, t⟩ s) := by
  have hw : (⟨x, y⟩ : ComplexNumber α).Alike ⟨x, y'⟩ := ⟨.refl x, hy⟩
  have hpow : (m.value.pow ⟨x, y⟩).Alike (m.value.pow ⟨x, y'⟩) := by
    have hzero (y : α) : ¬ (⟨x, y⟩ : ComplexNumber α).isZero = true := by
      change ¬ (x == Scalar.zero && y == Scalar.zero) = true
      simp [hx]
    unfold ComplexNumber.pow
    rw [if_neg (hzero y), if_neg (hzero y')]
    exact hexp _ _ (hw.mul (.refl m.value.log))
  have hvalue : (powValue m.value ⟨x, y⟩).Alike (powValue m.value ⟨x, y'⟩) := by
    unfold powValue
    rw [hw.isReal]
    split_ifs
    · exact .refl _
    · exact hpow
  unfold Number.pow
  dsimp only
  rw [hvalue.isReal]
  exact .ofNumber _ s hvalue

theorem Constant.powIn_alike (hexp : ComplexNumber.ExpBlind α) (hx : (x == Scalar.zero) = false)
    (hy : Scalar.Alike y y') (c : Constant α) (s : Shape) :
    (c.powIn s (.number ⟨⟨x, y⟩, flag, t⟩)).Alike (c.powIn s (.number ⟨⟨x, y'⟩, flag, t⟩)) := by
  have hnumber (m : Number α) : (m.pow ⟨⟨x, y⟩, flag, t⟩ s).Alike (m.pow ⟨⟨x, y'⟩, flag, t⟩ s) :=
    Number.pow_alike hexp hx hy m s
  have hzero : (powOfZeroIn s (.number ⟨⟨x, y⟩, flag, t⟩)).Alike
      (powOfZeroIn s (.number ⟨⟨x, y'⟩, flag, t⟩)) := by
    have hnever (y : α) : (⟨x, y⟩ : ComplexNumber α).isZero = false := by
      change (x == Scalar.zero && y == Scalar.zero) = false
      rw [hx, Bool.false_and]
    simp only [powOfZeroIn, hnever]
    exact .refl _
  unfold powIn
  split_ifs
  · exact hzero
  · cases c with
    | zero r => exact hzero
    | unity r | nan r => exact .refl _
    | negUnity r => exact hnumber _
    | number m => exact hnumber m

omit [LawfulRounding α] in
/-- Only the real part of an exponent enters a tensor. -/
theorem Tensor.pow_real (hy : y == Scalar.zero) (a : Tensor α) :
    BinaryFn.pow.onTensorConstant a (.number ⟨⟨x, y⟩, flag, t⟩) =
      (Tensor.joinShapes a.shape t >>= fun _ =>
        a.combineWith (fun z => BinaryFn.pow.real z x) (.zero t)) := by
  have hpart : Value.realPart "pow" (.number ⟨⟨x, y⟩, flag, t⟩) = .ok x := by
    simp [Value.realPart, Constant.value, ComplexNumber.asReal?, ComplexNumber.isReal, hy]
  change (Tensor.joinShapes a.shape t >>= fun _ => Value.realPart "pow" _ >>= fun x =>
    a.combineWith (fun z => BinaryFn.pow.real z x) (.zero t)) = _
  rw [hpart]
  rfl

theorem Value.pow_alike (hexp : ComplexNumber.ExpBlind α) (hx : (x == Scalar.zero) = false)
    (hy : y == Scalar.zero) (hy' : y' == Scalar.zero) {v r : Value α}
    (h : BinaryFn.pow.onValues v (.symbol (.number ⟨⟨x, y⟩, flag, t⟩)) = .ok r) :
    ∃ q, BinaryFn.pow.onValues v (.symbol (.number ⟨⟨x, y'⟩, flag, t⟩)) = .ok q ∧ r.Alike q := by
  cases v with
  | tensor a =>
    have h := (Tensor.pow_real hy a).symm.trans h
    exact ⟨r, (Tensor.pow_real hy' a).trans h, .refl r⟩
  | symbol b =>
    obtain ⟨e, he, h⟩ := exists_of_bind_eq_ok h
    obtain rfl := Except.ok.inj h
    obtain ⟨s, hs, he⟩ := exists_of_bind_eq_ok he
    obtain rfl := Except.ok.inj he
    have halike : Scalar.Alike y y' :=
      Or.inl (LawfulRounding.beq_trans _ _ _ hy (LawfulRounding.beq_symm _ _ hy'))
    have hpow : (b.powIn s (.number ⟨⟨x, y⟩, flag, t⟩)).Alike
        (b.powIn s (.number ⟨⟨x, y'⟩, flag, t⟩)) := b.powIn_alike hexp hx halike s
    refine ⟨.symbol (b.powIn s (.number ⟨⟨x, y'⟩, flag, t⟩)), ?_, .symbol hpow⟩
    have hjoin : Tensor.joinShapes b.shape (Constant.number ⟨⟨x, y'⟩, flag, t⟩).shape =
        (.ok s : Except (AlgebraError α) Shape) := hs
    unfold BinaryFn.onValues BinaryFn.onConstants
    dsimp only
    rw [hjoin]
    rfl

end Powers

/-! ### Exponentials of machine numbers -/

namespace Double

variable {x y : Double}

/-- Whether the exponential, the sine and the cosine do not tell the two zeros apart. -/
structure ZeroBlind : Prop where
  exp : Scalar.Alike (Scalar.exp (-Scalar.zero : Double)) (Scalar.exp Scalar.zero)
  sin : Scalar.Alike (Scalar.sin (-Scalar.zero : Double)) (Scalar.sin Scalar.zero)
  cos : Scalar.Alike (Scalar.cos (-Scalar.zero : Double)) (Scalar.cos Scalar.zero)

theorem eq_zero_of_unpack {z : Float} (hz : z.isNaN = false) {s : Float.Model.UnpackedFloat.Sign}
    (h : z.toModel.unpack = .zero s) :
    number z hz = Scalar.zero ∨ number z hz = -Scalar.zero := by
  rw [zero_eq, neg_number]
  cases s with
  | positive => exact Or.inl (by congr 1; exact eq_of_unpack (h.trans unpack_zero.symm))
  | negative =>
    refine Or.inr ?_
    congr 1
    apply eq_of_unpack
    rw [h, unpack_neg, unpack_zero]
    rfl

/-- Alike machine numbers are the same, or the two zeros, or both undefined. -/
theorem alike_cases {R : Double → Double → Prop} (hrefl : ∀ x, R x x)
    (hzero : R (-Scalar.zero) Scalar.zero) (hzero' : R Scalar.zero (-Scalar.zero))
    (hnan : ∀ s t, R (nan s) (nan t)) (h : Scalar.Alike x y) : R x y := by
  rcases h with h | ⟨hx, hy⟩
  · obtain ⟨a, ha, b, hb, rfl, rfl, hbeq⟩ := exists_of_beq h
    obtain ⟨-, halike⟩ := float_beq_iff.mp hbeq
    generalize hu : a.toModel.unpack = u at halike
    generalize hv : b.toModel.unpack = v at halike
    cases halike with
    | refl u =>
      obtain rfl := eq_of_unpack (hu.trans hv.symm)
      exact hrefl _
    | zeros s t =>
      rcases eq_zero_of_unpack ha hu with ha' | ha' <;>
        rcases eq_zero_of_unpack hb hv with hb' | hb' <;> rw [ha', hb']
      · exact hrefl _
      · exact hzero'
      · exact hzero
      · exact hrefl _
  · cases x with
    | number a ha => nomatch hx
    | nan s =>
      cases y with
      | number b hb => nomatch hy
      | nan t => exact hnan s t

/-- A function of one number that does not tell the two zeros apart keeps alikeness. -/
theorem lift_alike {f : Float → Float}
    (hf : Scalar.Alike (lift f (-Scalar.zero)) (lift f Scalar.zero)) (h : Scalar.Alike x y) :
    Scalar.Alike (lift f x) (lift f y) :=
  alike_cases (R := fun x y => Scalar.Alike (lift f x) (lift f y)) (fun _ => .refl _) hf hf.symm
    (fun _ _ => Or.inr ⟨rfl, rfl⟩) h

/-- A test that does not tell the two zeros apart gives the same for alike numbers. -/
theorem test_alike {p : Double → Bool} (hzero : p (-Scalar.zero) = p Scalar.zero)
    (hnan : ∀ s t, p (nan s) = p (nan t)) (h : Scalar.Alike x y) : p x = p y :=
  alike_cases (R := fun x y => p x = p y) (fun _ => rfl) hzero hzero.symm hnan h

theorem ZeroBlind.expBlind (h : ZeroBlind) : ComplexNumber.ExpBlind Double := by
  intro z w hzw
  have hpolar : (ComplexNumber.polar (Scalar.exp z.re) z.im).Alike
      (ComplexNumber.polar (Scalar.exp w.re) w.im) :=
    ⟨(lift_alike h.exp hzw.re).mul (lift_alike h.cos hzw.im),
      (lift_alike h.exp hzw.re).mul (lift_alike h.sin hzw.im)⟩
  -- the cases of the exponential are told apart by tests that do not see the sign of a zero
  have hinfinite {x y : Double} (h : Scalar.Alike x y) :
      Scalar.isInfinite x = Scalar.isInfinite y :=
    test_alike (by decide +kernel) (fun _ _ => rfl) h
  have hlt : Scalar.lt z.re Scalar.zero = Scalar.lt w.re Scalar.zero :=
    test_alike (p := fun x => Scalar.lt x Scalar.zero) (by decide +kernel) (fun _ _ => rfl) hzw.re
  have hfinite : Scalar.isFinite z.im = Scalar.isFinite w.im :=
    test_alike (by decide +kernel) (fun _ _ => rfl) hzw.im
  unfold ComplexNumber.exp
  rw [hinfinite hzw.re, hlt, hfinite, hzw.im.beq_eq, hinfinite hzw.im, hzw.im.isNaN_eq,
    hzw.re.isNaN_eq, hzw.isReal]
  split_ifs
  · exact hpolar
  · exact .refl _
  · exact hzw
  · exact ⟨hzw.re, .refl _⟩
  · exact hzw
  · exact hpolar
  · exact hzw
  · exact hpolar

end Double

end FormulaCalculus
