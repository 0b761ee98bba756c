import FormulaCalculus.Proofs.Algebra.Symbols
import FormulaCalculus.Tree.Derivative

/-!
The simplified trees. A simplified tree has the value of the tree it stands for, except that an
operand which is left out no longer stretches the value to its shape.
-/

namespace FormulaCalculus

namespace Node

variable {α β : Type} [Scalar α]

/-- Whether a tree has well-formed constants and no leaf has a shape that does not stretch to the
given one. -/
def Bounded (read : β → Tensor α) (t : Shape) : Node α β → Prop
  | constant c => c.WellFormed ∧ c.shape.StretchesTo t
  | tensor a => a.shape.StretchesTo t
  | variableLeaf _ b => (read b).shape.StretchesTo t
  | unary _ a => a.Bounded read t
  | binary _ a b => a.Bounded read t ∧ b.Bounded read t

/-- The trees that stand for a function of two trees one of which is a symbol. -/
inductive Simplifies : BinaryFn → Node α β → Node α β → Node α β → Prop
  | keepLeft {f : BinaryFn} {c : Constant α} (x : Node α β) (h : f.NeutralRight c) :
      Simplifies f x (constant c) x
  | keepRight {f : BinaryFn} {c : Constant α} (x : Node α β) (h : f.NeutralLeft c) :
      Simplifies f (constant c) x x
  | negLeft {f : BinaryFn} {c : Constant α} (x : Node α β) (h : f.OppositeRight c) :
      Simplifies f x (constant c) (smartUnary .neg x)
  | negRight {f : BinaryFn} {c : Constant α} (x : Node α β) (h : f.OppositeLeft c) :
      Simplifies f (constant c) x (smartUnary .neg x)
  | zeroMul (s : Shape) (x : Node α β) :
      Simplifies .mul (constant (.zero s)) x (constant (.zero s))
  | mulZero (s : Shape) (x : Node α β) :
      Simplifies .mul x (constant (.zero s)) (constant (.zero s))
  | powUnity (s : Shape) (x : Node α β) : Simplifies .pow x (constant (.unity s)) x
  | powZero (s : Shape) (x : Node α β) :
      Simplifies .pow x (constant (.zero s)) (constant (.unity s))

theorem smartBinary_cases (f : BinaryFn) (a b : Node α β) :
    (∃ c d, a = constant c ∧ b = constant d ∧
      smartBinary f a b = do return constant (← f.onConstants c d)) ∨
    (∃ n, Simplifies f a b n ∧ smartBinary f a b = .ok n) ∨
    smartBinary f a b = .ok (binary f a b) := by
  fun_cases smartBinary f a b with
  | case1 => exact Or.inl ⟨_, _, rfl, rfl, rfl⟩
  | case2 s x => exact Or.inr (Or.inl ⟨b, .keepRight b (.zero_add s), rfl⟩)
  | case3 x s => exact Or.inr (Or.inl ⟨a, .keepLeft a (.add_zero s), rfl⟩)
  | case4 x s => exact Or.inr (Or.inl ⟨a, .keepLeft a (.sub_zero s), rfl⟩)
  | case5 s x => exact Or.inr (Or.inl ⟨_, .negRight b (.zero_sub s), rfl⟩)
  | case6 b s => exact Or.inr (Or.inl ⟨_, .zeroMul s b, rfl⟩)
  | case7 a s => exact Or.inr (Or.inl ⟨_, .mulZero s a, rfl⟩)
  | case8 s x => exact Or.inr (Or.inl ⟨b, .keepRight b (.unity_mul s), rfl⟩)
  | case9 x s => exact Or.inr (Or.inl ⟨a, .keepLeft a (.mul_unity s), rfl⟩)
  | case10 x s => exact Or.inr (Or.inl ⟨a, .keepLeft a (.div_unity s), rfl⟩)
  | case11 s x => exact Or.inr (Or.inl ⟨_, .negRight b (.negUnity_mul s), rfl⟩)
  | case12 x s => exact Or.inr (Or.inl ⟨_, .negLeft a (.mul_negUnity s), rfl⟩)
  | case13 x s => exact Or.inr (Or.inl ⟨_, .negLeft a (.div_negUnity s), rfl⟩)
  | case14 x s => exact Or.inr (Or.inl ⟨a, .powUnity s a, rfl⟩)
  | case15 a s => exact Or.inr (Or.inl ⟨_, .powZero s a, rfl⟩)
  | case16 f a b => exact Or.inr (Or.inr rfl)

variable {read : β → Tensor α} {t u : Shape} {a b n : Node α β} {v w r : Value α}

theorem Bounded.mono (h : n.Bounded read t) (htu : t.StretchesTo u) : n.Bounded read u := by
  induction n with
  | constant c => exact ⟨h.1, h.2.trans htu⟩
  | tensor a => exact Shape.StretchesTo.trans h htu
  | variableLeaf name b => exact Shape.StretchesTo.trans h htu
  | unary f a ih => exact ih h
  | binary f a b iha ihb => exact ⟨iha h.1, ihb h.2⟩

variable [LawfulScalar α]

theorem Bounded.wellFormed_eval (h : n.Bounded read t) (hv : n.eval read = .ok v) :
    v.WellFormed := by
  induction n generalizing v with
  | constant c =>
    obtain rfl := Except.ok.inj hv
    exact h.1
  | tensor a =>
    obtain rfl := Except.ok.inj hv
    trivial
  | variableLeaf name b =>
    obtain rfl := Except.ok.inj hv
    trivial
  | unary f a ih =>
    obtain ⟨w, hw, hv⟩ := exists_of_bind_eq_ok hv
    obtain rfl := Except.ok.inj hv
    exact f.onValue_wellFormed (ih h hw)
  | binary f a b iha ihb =>
    obtain ⟨x, hx, hv⟩ := exists_of_bind_eq_ok hv
    obtain ⟨y, hy, hv⟩ := exists_of_bind_eq_ok hv
    exact BinaryFn.onValues_wellFormed (iha h.1 hx) (ihb h.2 hy) hv

theorem smartUnary_bounded (f : UnaryFn) (h : a.Bounded read t) :
    (smartUnary f a).Bounded read t := by
  fun_cases smartUnary f a with
  | case1 =>
    refine ⟨f.onConstant_wellFormed h.1, ?_⟩
    rw [UnaryFn.shape_onConstant]
    exact h.2
  | case2 a => exact h
  | case3 => exact h

/-- A function applied to a tree has the value of the function at the tree's value. -/
theorem smartUnary_eval (f : UnaryFn) (h : a.Bounded read t) (hv : a.eval read = .ok v) :
    (smartUnary f a).eval read = .ok (f.onValue v) := by
  fun_cases smartUnary f a with
  | case1 =>
    obtain rfl := Except.ok.inj hv
    rfl
  | case2 a =>
    obtain ⟨w, hw, hv⟩ := exists_of_bind_eq_ok hv
    obtain rfl := Except.ok.inj hv
    have hwellFormed : w.WellFormed := Bounded.wellFormed_eval (n := a) h hw
    rw [hw, UnaryFn.onValue_neg_neg hwellFormed]
  | case3 =>
    rw [eval, hv]
    rfl

theorem Simplifies.bounded {f : BinaryFn} (h : Simplifies f a b n) (ha : a.Bounded read t)
    (hb : b.Bounded read t) : n.Bounded read t := by
  cases h with
  | keepLeft _ _ => exact ha
  | keepRight _ _ => exact hb
  | negLeft _ _ => exact smartUnary_bounded .neg ha
  | negRight _ _ => exact smartUnary_bounded .neg hb
  | zeroMul s _ => exact ha
  | mulZero s _ => exact hb
  | powUnity s _ => exact ha
  | powZero s _ => exact ⟨trivial, hb.2⟩

theorem Simplifies.eval {f : BinaryFn} (h : Simplifies f a b n) (ha : a.Bounded read t)
    (hb : b.Bounded read t) (hv : a.eval read = .ok v) (hw : b.eval read = .ok w)
    (hr : f.onValues v w = .ok r) :
    r.IsNan ∨ (f = .pow ∧ r.isZero = true) ∨ ∃ q, n.eval read = .ok q ∧ q.StretchesTo r := by
  cases h with
  | keepLeft _ hc =>
    obtain rfl := Except.ok.inj hw
    exact Or.inr (Or.inr ⟨v, hv, hc.stretchesTo hr⟩)
  | keepRight _ hc =>
    obtain rfl := Except.ok.inj hv
    exact Or.inr (Or.inr ⟨w, hw, hc.stretchesTo hr⟩)
  | negLeft _ hc =>
    obtain rfl := Except.ok.inj hw
    exact Or.inr (Or.inr ⟨_, smartUnary_eval .neg ha hv, hc.stretchesTo hr⟩)
  | negRight _ hc =>
    obtain rfl := Except.ok.inj hv
    exact Or.inr (Or.inr ⟨_, smartUnary_eval .neg hb hw, hc.stretchesTo hr⟩)
  | zeroMul s _ =>
    obtain rfl := Except.ok.inj hv
    exact (BinaryFn.zero_mul_onValues hr).imp_right fun hzero => Or.inr ⟨_, rfl, hzero⟩
  | mulZero s _ =>
    obtain rfl := Except.ok.inj hw
    exact (BinaryFn.mul_zero_onValues hr).imp_right fun hzero => Or.inr ⟨_, rfl, hzero⟩
  | powUnity s _ =>
    obtain rfl := Except.ok.inj hw
    rcases BinaryFn.pow_unity_onValues (ha.wellFormed_eval hv) hr with hzero | hstretch
    · exact Or.inr (Or.inl ⟨rfl, hzero⟩)
    · exact Or.inr (Or.inr ⟨v, hv, hstretch⟩)
  | powZero s _ =>
    obtain rfl := Except.ok.inj hw
    exact Or.inr (Or.inr ⟨_, rfl, BinaryFn.pow_zero_onValues hr⟩)

/-- The simplified tree of a function other than the angle exists where the shapes of the leaves
meet. -/
theorem exists_smartBinary {f : BinaryFn} (hf : f ≠ .atan2) (ha : a.Bounded read t)
    (hb : b.Bounded read t) : ∃ n, smartBinary f a b = .ok n ∧ n.Bounded read t := by
  rcases smartBinary_cases f a b with ⟨c, d, rfl, rfl, hfold⟩ | ⟨n, hn, hsmart⟩ | hplain
  · obtain ⟨u, hu, hut⟩ := Shape.exists_join? ha.2 hb.2
    obtain ⟨e, he⟩ := BinaryFn.exists_onConstants hf hu
    have hshape := (BinaryFn.onConstants_eq_ok he).1
    obtain rfl : u = e.shape := Option.some.inj (hu.symm.trans hshape)
    refine ⟨constant e, ?_, BinaryFn.onConstants_wellFormed ha.1 hb.1 he, hut⟩
    rw [hfold, he]
    rfl
  · exact ⟨n, hsmart, hn.bounded ha hb⟩
  · exact ⟨binary f a b, hplain, ha, hb⟩

/-- The value of a simplified tree stretches to the value of the function, unless that is undefined
or a power that is the symbol for zero. -/
theorem smartBinary_eval {f : BinaryFn} (hn : smartBinary f a b = .ok n) (ha : a.Bounded read t)
    (hb : b.Bounded read t) (hv : a.eval read = .ok v) (hw : b.eval read = .ok w)
    (hr : f.onValues v w = .ok r) :
    r.IsNan ∨ (f = .pow ∧ r.isZero = true) ∨ ∃ q, n.eval read = .ok q ∧ q.StretchesTo r := by
  -- Constants are folded, a rule applies, or nothing is simplified.
  rcases smartBinary_cases f a b with ⟨c, d, rfl, rfl, hfold⟩ | ⟨m, hm, hsmart⟩ | hplain
  · obtain rfl := Except.ok.inj hv
    obtain rfl := Except.ok.inj hw
    obtain ⟨e, he, hr⟩ := exists_of_bind_eq_ok hr
    rw [hfold, he] at hn
    obtain rfl := Except.ok.inj hn
    obtain rfl := Except.ok.inj hr
    exact Or.inr (Or.inr ⟨_, rfl, .refl _⟩)
  · obtain rfl := Except.ok.inj (hsmart.symm.trans hn)
    exact hm.eval ha hb hv hw hr
  · obtain rfl := Except.ok.inj (hplain.symm.trans hn)
    refine Or.inr (Or.inr ⟨r, ?_, .refl r⟩)
    rw [Node.eval, hv, hw]
    exact hr

end Node

end FormulaCalculus
