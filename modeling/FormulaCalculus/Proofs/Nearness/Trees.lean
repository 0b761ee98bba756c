import FormulaCalculus.Proofs.Derivative.Closure
import FormulaCalculus.Proofs.Derivative.Refinement
import FormulaCalculus.Proofs.Derivative.Shape
import FormulaCalculus.Proofs.Nearness.Values
import FormulaCalculus.Proofs.Tree.WellFormed

/-!
Trees that track values. A tree tracks a value at a place if what it evaluates to, if it does, is
near the value there. The simplified sums, differences, products and quotients of trees that track
values track those of the values. What vanishes at a place, values and trees alike, is an ideal.
-/

namespace FormulaCalculus

open LawfulRounding
open Shape (join?)

variable {α β : Type} [Scalar α]

namespace BinaryFn

variable {f : BinaryFn} {t : Shape} {p : Nat} {v w r : Value α} [LawfulScalar α]

/-- Functions other than the angle have a value wherever a place has one. -/
theorem exists_onValues (hf : f ≠ .atan2) (ht : t.IsPlace p) (hv : v.shape.StretchesTo t)
    (hw : w.shape.StretchesTo t) (h : v.meetsComplex w = false) : ∃ r, f.onValues v w = .ok r := by
  obtain ⟨u, hu, hut⟩ := Shape.exists_join? hv hw
  have haddressable := Shape.isAddressable_of_stretchesTo hut ht.isAddressable
  have hangle : f.isComplexAngle v w = false := by
    cases f with
    | atan2 => exact absurd rfl hf
    | _ => rfl
  exact onValues_ok_iff.mpr ⟨u, hu, h, hangle, Or.inr haddressable⟩

/-- A constant that leaves the other operand as it is or negates it is real. -/
theorem meetsComplex_right {c : Constant α} (h : f.NeutralRight c ∨ f.OppositeRight c) :
    v.meetsComplex (.symbol c) = false := by
  have hreal : c.value.isReal = true := by
    rcases h with h | h <;> cases h <;> exact ComplexNumber.isReal_ofReal _
  cases v with
  | tensor a => exact congrArg Bool.not hreal
  | symbol d => rfl

theorem meetsComplex_left {c : Constant α} (h : f.NeutralLeft c ∨ f.OppositeLeft c) :
    (Value.symbol c).meetsComplex v = false := by
  have hreal : c.value.isReal = true := by
    rcases h with h | h <;> cases h <;> exact ComplexNumber.isReal_ofReal _
  cases v with
  | tensor a => exact congrArg Bool.not hreal
  | symbol d => rfl

end BinaryFn

/-! ### Values that vanish -/

namespace Value

/-- Whether a value of a shape that stretches to that of a place is near zero there. -/
structure Vanishes (t : Shape) (p : Nat) (v : Value α) : Prop where
  shape : v.shape.StretchesTo t
  null : v.Null t p

variable {t : Shape} {p : Nat}

/-- The values near zero at a place are an ideal. -/
theorem ideal_vanishes [LawfulRounding α] (ht : t.IsPlace p) :
    Terms.Ideal (fun v : Value α => v.shape.StretchesTo t) (Vanishes t p) where
  toClosed := closed_shape ht.ne_nil
  le _ h := h.shape
  neg v h := ⟨(closed_shape ht.ne_nil).unary .neg v h.shape, h.null.neg ht h.shape⟩
  add v w hv hw r hr := by
    refine ⟨(closed_shape ht.ne_nil).binary .add v w r hv.shape hw.shape hr, ?_⟩
    exact BinaryFn.null_of_add_or_sub (Or.inl rfl) ht hv.null hw.null hv.shape hw.shape hr
  sub v w hv hw r hr := by
    refine ⟨(closed_shape ht.ne_nil).binary .sub v w r hv.shape hw.shape hr, ?_⟩
    exact BinaryFn.null_of_add_or_sub (Or.inr rfl) ht hv.null hw.null hv.shape hw.shape hr
  mul v w hv hw h r hr := by
    refine ⟨(closed_shape ht.ne_nil).binary .mul v w r hv hw hr, ?_⟩
    exact BinaryFn.null_onValues ht (Or.inl ⟨rfl, h.imp Vanishes.null Vanishes.null⟩) hv hw hr
  div v w hv hw r hr := by
    refine ⟨(closed_shape ht.ne_nil).binary .div v w r hv.shape hw hr, ?_⟩
    exact BinaryFn.null_onValues ht (Or.inr ⟨rfl, hv.null⟩) hv.shape hw hr

end Value

namespace Node

variable {read : β → Tensor α} {t : Shape} {p : Nat} {a b n : Node α β} {v w r : Value α}

/-! ### Trees within a shape -/

theorem Bounded.shape_eval (h : n.Bounded read t) (hv : n.eval read = .ok v) :
    v.shape.StretchesTo t := by
  induction n generalizing v with
  | constant c =>
    obtain rfl := Except.ok.inj hv
    exact h.2
  | tensor a =>
    obtain rfl := Except.ok.inj hv
    exact h
  | variableLeaf name b =>
    obtain rfl := Except.ok.inj hv
    exact h
  | unary f a ih =>
    obtain ⟨w, hw, hv⟩ := exists_of_bind_eq_ok hv
    obtain rfl := Except.ok.inj hv
    rw [UnaryFn.shape_onValue]
    exact ih h hw
  | binary f a b iha ihb =>
    obtain ⟨x, hx, hv⟩ := exists_of_bind_eq_ok hv
    obtain ⟨y, hy, hv⟩ := exists_of_bind_eq_ok hv
    exact Shape.StretchesTo.of_join (BinaryFn.shape_onValues hv) (iha h.1 hx) (ihb h.2 hy)

variable [LawfulScalar α]

theorem Bounded.smartBinary {f : BinaryFn} (ha : a.Bounded read t) (hb : b.Bounded read t)
    (h : smartBinary f a b = .ok n) : n.Bounded read t := by
  rcases smartBinary_cases f a b with ⟨c, d, rfl, rfl, hfold⟩ | ⟨m, hm, hsmart⟩ | hplain
  · obtain ⟨e, he, h⟩ := exists_of_bind_eq_ok (hfold.symm.trans h)
    obtain rfl := Except.ok.inj h
    refine ⟨BinaryFn.onConstants_wellFormed ha.1 hb.1 he, ?_⟩
    exact Shape.StretchesTo.of_join (BinaryFn.onConstants_eq_ok he).1 ha.2 hb.2
  · obtain rfl := Except.ok.inj (hsmart.symm.trans h)
    exact hm.bounded ha hb
  · obtain rfl := Except.ok.inj (hplain.symm.trans h)
    exact ⟨ha, hb⟩

theorem closed_bounded (ht : t ≠ []) : Terms.Closed (Bounded (α := α) read t) where
  one := ⟨trivial, Shape.scalar_stretchesTo ht⟩
  half := ⟨real_wellFormed LawfulScalar.half_plain, Shape.scalar_stretchesTo ht⟩
  two := ⟨real_wellFormed LawfulScalar.two_plain, Shape.scalar_stretchesTo ht⟩
  ln10 := ⟨real_wellFormed LawfulScalar.ln10_plain, Shape.scalar_stretchesTo ht⟩
  unary f _ h := smartUnary_bounded f h
  binary _ _ _ _ ha hb h := ha.smartBinary hb h

theorem inherited_bounded (ht : t ≠ []) : Inherited (Bounded (α := α) read t) where
  toClosed := closed_bounded ht
  scalarZero := ⟨trivial, Shape.scalar_stretchesTo ht⟩
  constantZero _ h := ⟨trivial, h.2⟩
  tensorZero _ h := ⟨trivial, h⟩
  unaryChild _ _ h := h
  binaryChildren _ _ _ h := h

/-- What a simplified function of a tree evaluates to comes of what the tree evaluates to. -/
theorem exists_eval_of_smartUnary (f : UnaryFn) (h : a.Bounded read t)
    (hv : (smartUnary f a).eval read = .ok v) : ∃ w, a.eval read = .ok w ∧ v = f.onValue w := by
  revert h hv
  fun_cases Node.smartUnary f a with
  | case1 f c =>
    intro _ hv
    exact ⟨.symbol c, rfl, (Except.ok.inj hv).symm⟩
  | case2 a =>
    intro h hv
    have hwellFormed : v.WellFormed := Bounded.wellFormed_eval (n := a) h hv
    refine ⟨UnaryFn.neg.onValue v, ?_, (UnaryFn.onValue_neg_neg hwellFormed).symm⟩
    rw [eval, hv]
    rfl
  | case3 f a =>
    intro _ hv
    obtain ⟨w, hw, hv⟩ := exists_of_bind_eq_ok hv
    exact ⟨w, hw, (Except.ok.inj hv).symm⟩

end Node

/-! ### Trees that track values -/

namespace Node

/-- Whether two calculations have related results, if both succeed. -/
def Agrees (R : Node α β → Value α → Prop) (m : Except (AlgebraError α) (Node α β))
    (k : Except (AlgebraError α) (Value α)) : Prop :=
  ∀ n v, m = .ok n → k = .ok v → R n v

/-- Whether a tree within the shape of a place evaluates to what is near a value there. -/
structure Tracks (read : β → Tensor α) (t : Shape) (p : Nat) (n : Node α β) (v : Value α) :
    Prop where
  bounded : n.Bounded read t
  shape : v.shape.StretchesTo t
  near : ∀ q, n.eval read = .ok q → Value.Near t p q v

/-- Whether a tree within the shape of a place evaluates to what is near zero there. -/
structure Vanishes (read : β → Tensor α) (t : Shape) (p : Nat) (n : Node α β) : Prop where
  bounded : n.Bounded read t
  null : ∀ q, n.eval read = .ok q → q.Null t p

section Agrees

variable {R S : Node α β → Value α → Prop} {m : Except (AlgebraError α) (Node α β)}
  {k : Except (AlgebraError α) (Value α)}

omit [Scalar α] in
theorem Agrees.bind (h : Agrees R m k) {f : Node α β → Except (AlgebraError α) (Node α β)}
    {g : Value α → Except (AlgebraError α) (Value α)}
    (hfg : ∀ n v, R n v → Agrees S (f n) (g v)) : Agrees S (m >>= f) (k >>= g) := by
  intro n v hn hv
  obtain ⟨n', hn', hn⟩ := exists_of_bind_eq_ok hn
  obtain ⟨v', hv', hv⟩ := exists_of_bind_eq_ok hv
  exact hfg n' v' (h n' v' hn' hv') n v hn hv

omit [Scalar α] in
theorem Agrees.ok {n : Node α β} {v : Value α} (h : R n v) : Agrees R (.ok n) (.ok v) := by
  intro m w hm hw
  rwa [← Except.ok.inj hm, ← Except.ok.inj hw]

omit [Scalar α] in
theorem Follows.agrees (h : Follows R m k) : Agrees R m k := by
  intro n v hn hv
  obtain ⟨n', hn', hR⟩ := h v hv
  rwa [Except.ok.inj (hn.symm.trans hn')]

end Agrees

variable {read : β → Tensor α} {t : Shape} {p : Nat} {f : BinaryFn} {a b n : Node α β}
  {v w q r : Value α}

/-- Whether a value stretches to what a function gives of the values of two trees, or is the zero
that one of them is as a factor. -/
def ComesOf (read : β → Tensor α) (t : Shape) (f : BinaryFn) (a b : Node α β) (q : Value α) :
    Prop :=
  (∃ x y z, a.eval read = .ok x ∧ b.eval read = .ok y ∧ f.onValues x y = .ok z ∧
    q.StretchesTo z ∧ z.shape.StretchesTo t) ∨
  f = .mul ∧ ∃ s, q = .symbol (.zero s) ∧ s.StretchesTo t ∧
    (a = constant (.zero s) ∨ b = constant (.zero s))

theorem comesOf_smartBinary [LawfulScalar α] (hf : f.IsArithmetic) (ht : t.IsPlace p)
    (ha : a.Bounded read t) (hb : b.Bounded read t) (hn : smartBinary f a b = .ok n)
    (hq : n.eval read = .ok q) : ComesOf read t f a b q := by
  have hcomes {x y z : Value α} (hx : a.eval read = .ok x) (hy : b.eval read = .ok y)
      (hz : f.onValues x y = .ok z) (hqz : q.StretchesTo z) : ComesOf read t f a b q := by
    have hzt := Shape.StretchesTo.of_join (BinaryFn.shape_onValues hz) (ha.shape_eval hx)
      (hb.shape_eval hy)
    exact Or.inl ⟨x, y, z, hx, hy, hz, hqz, hzt⟩
  -- What is left of the function stretches to its value, which exists as the constant is real.
  have hsimplified {x y : Value α} (hx : a.eval read = .ok x) (hy : b.eval read = .ok y)
      (hmeets : x.meetsComplex y = false)
      (hz : ∀ z, f.onValues x y = .ok z → q.StretchesTo z) : ComesOf read t f a b q := by
    obtain ⟨z, hvalue⟩ :=
      BinaryFn.exists_onValues hf.2 ht (ha.shape_eval hx) (hb.shape_eval hy) hmeets
    exact hcomes hx hy hvalue (hz z hvalue)
  rcases smartBinary_cases f a b with ⟨c, d, rfl, rfl, hfold⟩ | ⟨m, hm, hsmart⟩ | hplain
  · obtain ⟨e, he, hn⟩ := exists_of_bind_eq_ok (hfold.symm.trans hn)
    obtain rfl := Except.ok.inj hn
    obtain rfl := Except.ok.inj hq
    have hvalues : f.onValues (.symbol c) (.symbol d) = .ok (.symbol e) := by
      rw [BinaryFn.onValues, he]
      rfl
    exact hcomes rfl rfl hvalues (.refl _)
  · obtain rfl := Except.ok.inj (hsmart.symm.trans hn)
    cases hm with
    | keepLeft _ hc =>
      have hmeets := BinaryFn.meetsComplex_right (v := q) (Or.inl hc)
      exact hsimplified hq rfl hmeets fun _ h => hc.stretchesTo h
    | keepRight _ hc =>
      have hmeets := BinaryFn.meetsComplex_left (v := q) (Or.inl hc)
      exact hsimplified rfl hq hmeets fun _ h => hc.stretchesTo h
    | negLeft _ hc =>
      obtain ⟨x, hx, rfl⟩ := exists_eval_of_smartUnary .neg ha hq
      have hmeets := BinaryFn.meetsComplex_right (v := x) (Or.inr hc)
      exact hsimplified hx rfl hmeets fun _ h => hc.stretchesTo h
    | negRight _ hc =>
      obtain ⟨y, hy, rfl⟩ := exists_eval_of_smartUnary .neg hb hq
      have hmeets := BinaryFn.meetsComplex_left (v := y) (Or.inr hc)
      exact hsimplified rfl hy hmeets fun _ h => hc.stretchesTo h
    | zeroMul s _ => exact Or.inr ⟨rfl, s, (Except.ok.inj hq).symm, ha.2, Or.inl rfl⟩
    | mulZero s _ => exact Or.inr ⟨rfl, s, (Except.ok.inj hq).symm, hb.2, Or.inr rfl⟩
    | powUnity s _ => exact absurd rfl hf.1
    | powZero s _ => exact absurd rfl hf.1
  · obtain rfl := Except.ok.inj (hplain.symm.trans hn)
    obtain ⟨x, hx, hq⟩ := exists_of_bind_eq_ok hq
    obtain ⟨y, hy, hq⟩ := exists_of_bind_eq_ok hq
    exact hcomes hx hy hq (.refl q)

variable [LawfulRounding α]

theorem Refines.tracks (h : n.Refines read v) (hv : v.shape.StretchesTo t) :
    n.Tracks read t p v := by
  refine ⟨h.bounded.mono hv, hv, fun q hq => ?_⟩
  rcases h.eval with hnan | ⟨w, hw, hstretch⟩
  · exact .undefinedRight hnan
  · obtain rfl := Except.ok.inj (hw.symm.trans hq)
    exact Value.near_of_stretches hstretch hv

theorem Tracks.vanishes {s : Shape} (h : n.Tracks read t p (.symbol (.zero s)))
    (ht : t.IsPlace p) : n.Vanishes read t p :=
  ⟨h.bounded, fun q hq => (Value.null_iff_near ht h.shape).mp (h.near q hq).symm⟩

theorem Vanishes.tracks (h : n.Vanishes read t p) (hv : v.Vanishes t p) (ht : t.IsPlace p) :
    n.Tracks read t p v := by
  refine ⟨h.bounded, hv.shape, fun q hq => ?_⟩
  exact (h.null q hq).near hv.null ht (h.bounded.shape_eval hq) hv.shape

/-- What a tree tracks that is the leaf with the symbol for zero. -/
theorem Tracks.null_of_isZeroLeaf (h : n.Tracks read t p v) (ht : t.IsPlace p)
    (hn : n.isZeroLeaf = true) : v.Vanishes t p := by
  cases n with
  | constant c =>
    cases c with
    | zero s => exact ⟨h.shape, (Value.null_iff_near ht h.bounded.2).mp (h.near _ rfl)⟩
    | _ => exact absurd hn Bool.false_ne_true
  | _ => exact absurd hn Bool.false_ne_true

theorem Tracks.smartNeg (h : n.Tracks read t p v) (ht : t.IsPlace p) :
    (smartUnary .neg n).Tracks read t p (UnaryFn.neg.onValue v) := by
  refine ⟨smartUnary_bounded .neg h.bounded, ?_, fun q hq => ?_⟩
  · rw [UnaryFn.shape_onValue]
    exact h.shape
  · obtain ⟨w, hw, rfl⟩ := exists_eval_of_smartUnary .neg h.bounded hq
    exact (h.near w hw).neg ht (h.bounded.shape_eval hw) h.shape

/-- The simplified function of trees that track values; a divisor has to refine its value. -/
theorem Tracks.smartBinary (hf : f.IsArithmetic) (ht : t.IsPlace p) (ha : a.Tracks read t p v)
    (hb : b.Tracks read t p w) (hdiv : f = .div → b.Refines read w) :
    Agrees (Tracks read t p) (smartBinary f a b) (f.onValues v w) := by
  intro n r hn hr
  have hrt := Shape.StretchesTo.of_join (BinaryFn.shape_onValues hr) ha.shape hb.shape
  refine ⟨ha.bounded.smartBinary hb.bounded hn, hrt, fun q hq => ?_⟩
  rcases comesOf_smartBinary hf ht ha.bounded hb.bounded hn hq with
    ⟨x, y, z, hx, hy, hz, hqz, hzt⟩ | ⟨rfl, s, rfl, hs, hleaf⟩
  · by_cases hnan : w.IsNan
    · exact .undefinedRight (BinaryFn.isNan_onValues_right hnan hr)
    · have hdivisor (h : f = .div) : y.StretchesTo w := by
        obtain ⟨y', hy', hstretch⟩ := (hdiv h).eval.resolve_left hnan
        rwa [← Except.ok.inj (hy.symm.trans hy')] at hstretch
      have hnear := BinaryFn.near_onValues hf ht (ha.near x hx) (hb.near y hy) hdivisor
        (ha.bounded.shape_eval hx) (hb.bounded.shape_eval hy) ha.shape hb.shape hz hr
      exact hnear.of_stretchesTo hqz hzt
  · -- one of the values is near the zero that is its tree
    have hnull : v.Null t p ∨ w.Null t p := by
      rcases hleaf with rfl | rfl
      · exact Or.inl (ha.null_of_isZeroLeaf ht rfl).null
      · exact Or.inr (hb.null_of_isZeroLeaf ht rfl).null
    refine (Value.null_iff_near ht hs).mpr ?_
    exact BinaryFn.null_onValues ht (Or.inl ⟨rfl, hnull⟩) ha.shape hb.shape hr

/-- A function that is near zero wherever its operands have values. -/
theorem Vanishes.smartBinary (hf : f.IsArithmetic) (ht : t.IsPlace p) (ha : a.Bounded read t)
    (hb : b.Bounded read t) (hn : smartBinary f a b = .ok n)
    (h : ∀ x y z, a.eval read = .ok x → b.eval read = .ok y → f.onValues x y = .ok z →
      z.Null t p) : n.Vanishes read t p := by
  refine ⟨ha.smartBinary hb hn, fun q hq => ?_⟩
  rcases comesOf_smartBinary hf ht ha hb hn hq with
    ⟨x, y, z, hx, hy, hz, hqz, hzt⟩ | ⟨-, s, rfl, -, -⟩
  · have hself := Shape.StretchesTo.refl t
    have hnear := ((Value.null_iff_near ht hself).mpr (h x y z hx hy hz)).symm
    exact (Value.null_iff_near ht hself).mp (hnear.of_stretchesTo hqz hzt).symm
  · exact .zero s

/-- The trees near zero at a place are an ideal. -/
theorem ideal_vanishes (ht : t.IsPlace p) :
    Terms.Ideal (Bounded (α := α) read t) (Vanishes read t p) where
  toClosed := closed_bounded ht.ne_nil
  le _ h := h.bounded
  neg a h := by
    refine ⟨smartUnary_bounded .neg h.bounded, fun q hq => ?_⟩
    obtain ⟨w, hw, rfl⟩ := exists_eval_of_smartUnary .neg h.bounded hq
    exact (h.null w hw).neg ht (h.bounded.shape_eval hw)
  add a b ha hb n hn := by
    refine .smartBinary (by decide) ht ha.bounded hb.bounded hn fun x y z hx hy hz => ?_
    exact BinaryFn.null_of_add_or_sub (Or.inl rfl) ht (ha.null x hx) (hb.null y hy)
      (ha.bounded.shape_eval hx) (hb.bounded.shape_eval hy) hz
  sub a b ha hb n hn := by
    refine .smartBinary (by decide) ht ha.bounded hb.bounded hn fun x y z hx hy hz => ?_
    exact BinaryFn.null_of_add_or_sub (Or.inr rfl) ht (ha.null x hx) (hb.null y hy)
      (ha.bounded.shape_eval hx) (hb.bounded.shape_eval hy) hz
  mul a b ha hb h n hn := by
    refine .smartBinary (by decide) ht ha hb hn fun x y z hx hy hz => ?_
    have hnull := h.imp (·.null x hx) (·.null y hy)
    exact BinaryFn.null_onValues ht (Or.inl ⟨rfl, hnull⟩) (ha.shape_eval hx) (hb.shape_eval hy) hz
  div a b ha hb n hn := by
    refine .smartBinary (by decide) ht ha.bounded hb hn fun x y z hx hy hz => ?_
    exact BinaryFn.null_onValues ht (Or.inr ⟨rfl, ha.null x hx⟩) (ha.bounded.shape_eval hx)
      (hb.shape_eval hy) hz

end Node

end FormulaCalculus
