import FormulaCalculus.Proofs.Tree.Simplification

/-!
Trees that refine values. A tree refines a value if its own value stretches to it, whatever the
shape of what was simplified away. The operations of the chain rules preserve refinement, with two
exceptions in which a value is the symbol for zero although the tree need not be: a power, and a
quotient whose divisor was not evaluated in its full shape.
-/

namespace FormulaCalculus

variable {α β : Type} [Scalar α]

namespace Node

/-- Whether a tree has a value, to the shape of which all its leaves stretch. -/
structure Computes (read : β → Tensor α) (n : Node α β) (v : Value α) : Prop where
  bounded : n.Bounded read v.shape
  eval : n.eval read = .ok v

/-- Whether the value of a tree stretches to a value that is not the undefined one. -/
structure Refines (read : β → Tensor α) (n : Node α β) (v : Value α) : Prop where
  bounded : n.Bounded read v.shape
  eval : v.IsNan ∨ ∃ w, n.eval read = .ok w ∧ w.StretchesTo v

/-- Refinement of values that are not the symbol for zero. -/
structure RefinesNonzero (read : β → Tensor α) (n : Node α β) (v : Value α) : Prop where
  bounded : n.Bounded read v.shape
  refines : v.isZero = true ∨ n.Refines read v

/-- Whether a calculation with trees succeeds with a related tree whenever the calculation with
values succeeds. -/
def Follows (R : Node α β → Value α → Prop) (m : Except (AlgebraError α) (Node α β))
    (k : Except (AlgebraError α) (Value α)) : Prop :=
  ∀ v, k = .ok v → ∃ n, m = .ok n ∧ R n v

section Follows

variable {R S : Node α β → Value α → Prop} {m : Except (AlgebraError α) (Node α β)}
  {k : Except (AlgebraError α) (Value α)}

omit [Scalar α] in
theorem Follows.bind (h : Follows R m k) {f : Node α β → Except (AlgebraError α) (Node α β)}
    {g : Value α → Except (AlgebraError α) (Value α)}
    (hfg : ∀ n v, R n v → Follows S (f n) (g v)) : Follows S (m >>= f) (k >>= g) := by
  intro w hw
  obtain ⟨v, hv, hw⟩ := exists_of_bind_eq_ok hw
  obtain ⟨n, rfl, hn⟩ := h v hv
  exact hfg n v hn w hw

omit [Scalar α] in
theorem Follows.mono (h : Follows R m k) (hRS : ∀ n v, R n v → S n v) : Follows S m k := by
  intro v hv
  obtain ⟨n, hm, hn⟩ := h v hv
  exact ⟨n, hm, hRS n v hn⟩

omit [Scalar α] in
theorem Follows.ok {n : Node α β} {v : Value α} (h : R n v) : Follows R (.ok n) (.ok v) := by
  intro w hw
  obtain rfl := Except.ok.inj hw
  exact ⟨n, rfl, h⟩

end Follows

variable {read : β → Tensor α} {a b n : Node α β} {v w r : Value α}

theorem Computes.refines (h : n.Computes read v) : n.Refines read v :=
  ⟨h.bounded, Or.inr ⟨v, h.eval, .refl v⟩⟩

theorem Refines.refinesNonzero (h : n.Refines read v) : n.RefinesNonzero read v :=
  ⟨h.bounded, Or.inr h⟩

variable [LawfulScalar α]

theorem Computes.smartUnary (f : UnaryFn) (h : a.Computes read v) :
    (smartUnary f a).Computes read (f.onValue v) := by
  refine ⟨?_, smartUnary_eval f h.bounded h.eval⟩
  rw [UnaryFn.shape_onValue]
  exact smartUnary_bounded f h.bounded

theorem Refines.smartUnary (f : UnaryFn) (h : a.Refines read v) :
    (smartUnary f a).Refines read (f.onValue v) := by
  constructor
  · rw [UnaryFn.shape_onValue]
    exact smartUnary_bounded f h.bounded
  · rcases h.eval with hnan | ⟨w, hw, hstretch⟩
    · exact Or.inl (f.isNan_onValue hnan)
    · have heval := smartUnary_eval f h.bounded hw
      exact Or.inr ⟨f.onValue w, heval, f.onValue_stretchesTo hstretch⟩

theorem exists_bounded_smartBinary {f : BinaryFn} (hf : f ≠ .atan2)
    (ha : a.Bounded read v.shape) (hb : b.Bounded read w.shape) (hr : f.onValues v w = .ok r) :
    ∃ n, smartBinary f a b = .ok n ∧ n.Bounded read r.shape := by
  obtain ⟨hv, hw⟩ := Shape.join?_eq_some (BinaryFn.shape_onValues hr)
  exact exists_smartBinary hf (ha.mono hv) (hb.mono hw)

/-- The simplified tree of a function of trees that refine values. -/
theorem exists_refines_smartBinary {f : BinaryFn} (hf : f ≠ .atan2) (ha : a.Refines read v)
    (hb : b.Refines read w) (hpow : f = .pow → ¬ v.IsNan) (hr : f.onValues v w = .ok r) :
    ∃ n, smartBinary f a b = .ok n ∧ n.Bounded read r.shape ∧
      (n.Refines read r ∨
        r.isZero = true ∧ (f = .pow ∨ f = .div ∧ b.eval read ≠ .ok w)) := by
  obtain ⟨n, hn, hbounded⟩ := exists_bounded_smartBinary hf ha.bounded hb.bounded hr
  refine ⟨n, hn, hbounded, ?_⟩
  rcases ha.eval with hnan | ⟨v₀, hv₀, hv⟩
  · have hne : f ≠ .pow := fun h => hpow h hnan
    exact Or.inl ⟨hbounded, Or.inl (BinaryFn.isNan_onValues_left hne hnan hr)⟩
  rcases hb.eval with hnan | ⟨w₀, hw₀, hw⟩
  · exact Or.inl ⟨hbounded, Or.inl (BinaryFn.isNan_onValues_right hnan hr)⟩
  -- The values before stretching have a result `q`, unless zero is divided by what is stretched.
  rcases BinaryFn.onValues_stretchesTo hv hw hr with ⟨q, hq, hqr⟩ | ⟨hdiv, hzero, hne⟩
  · obtain ⟨hvr, hwr⟩ := Shape.join?_eq_some (BinaryFn.shape_onValues hr)
    rcases smartBinary_eval hn (ha.bounded.mono hvr) (hb.bounded.mono hwr) hv₀ hw₀ hq with
      hnan | ⟨hpow, hzero⟩ | ⟨p, hp, hpq⟩
    · exact Or.inl ⟨hbounded, Or.inl (hnan.of_stretchesTo hqr)⟩
    · exact Or.inr ⟨Value.isZero_of_stretchesTo hzero hqr, Or.inl hpow⟩
    · exact Or.inl ⟨hbounded, Or.inr ⟨p, hp, hpq.trans hqr⟩⟩
  · refine Or.inr ⟨hzero, Or.inr ⟨hdiv, ?_⟩⟩
    rw [hw₀]
    intro hsame
    exact hne (Except.ok.inj hsame)

/-- Sums, differences and products. -/
theorem Refines.smartBinary {f : BinaryFn} (hf : f = .add ∨ f = .sub ∨ f = .mul)
    (ha : a.Refines read v) (hb : b.Refines read w) :
    Follows (Refines read) (smartBinary f a b) (f.onValues v w) := by
  intro r hr
  have hne : f ≠ .atan2 ∧ f ≠ .pow ∧ f ≠ .div := by
    rcases hf with rfl | rfl | rfl <;> decide
  obtain ⟨hatan2, hpow, hdiv⟩ := hne
  obtain ⟨n, hn, _, hcases⟩ :=
    exists_refines_smartBinary hatan2 ha hb (fun h => absurd h hpow) hr
  rcases hcases with hrefines | ⟨_, hexception⟩
  · exact ⟨n, hn, hrefines⟩
  · rcases hexception with h | ⟨h, _⟩
    · exact absurd h hpow
    · exact absurd h hdiv

/-- Quotients whose divisor is evaluated in its full shape. -/
theorem Refines.smartDiv (ha : a.Refines read v) (hb : b.Computes read w) :
    Follows (Refines read) (Node.smartBinary .div a b) (BinaryFn.div.onValues v w) := by
  intro r hr
  obtain ⟨n, hn, _, hcases⟩ :=
    exists_refines_smartBinary (f := .div) (by decide) ha hb.refines (fun h => nomatch h) hr
  rcases hcases with hrefines | ⟨_, hexception⟩
  · exact ⟨n, hn, hrefines⟩
  · rcases hexception with h | ⟨_, h⟩
    · exact nomatch h
    · exact absurd hb.eval h

/-- All functions but the angle, up to the symbol for zero. -/
theorem Refines.smartBinary_nonzero {f : BinaryFn} (hf : f ≠ .atan2) (ha : a.Refines read v)
    (hb : b.Refines read w) (hpow : f = .pow → ¬ v.IsNan) :
    Follows (RefinesNonzero read) (Node.smartBinary f a b) (f.onValues v w) := by
  intro r hr
  obtain ⟨n, hn, hbounded, hcases⟩ := exists_refines_smartBinary hf ha hb hpow hr
  rcases hcases with hrefines | ⟨hzero, _⟩
  · exact ⟨n, hn, hrefines.refinesNonzero⟩
  · exact ⟨n, hn, hbounded, Or.inl hzero⟩

omit [LawfulScalar α] in
theorem refinesNonzero_of_zero (hn : n.Bounded read r.shape) {s : Shape}
    (h : r.IsNan ∨ (Value.symbol (.zero s)).StretchesTo r) : n.RefinesNonzero read r := by
  refine ⟨hn, ?_⟩
  rcases h with hnan | hzero
  · exact Or.inr ⟨hn, Or.inl hnan⟩
  · exact Or.inl (Value.isZero_of_stretchesTo rfl hzero)

/-- Products with a factor that refines its value unless that is the symbol for zero. -/
theorem RefinesNonzero.smartMul (ha : a.RefinesNonzero read v) (hb : b.Refines read w) :
    Follows (RefinesNonzero read) (Node.smartBinary .mul a b) (BinaryFn.mul.onValues v w) := by
  rcases ha.refines with hzero | hrefines
  · intro r hr
    obtain ⟨n, hn, hbounded⟩ :=
      exists_bounded_smartBinary (f := .mul) (by decide) ha.bounded hb.bounded hr
    obtain ⟨s, rfl⟩ := Value.exists_of_isZero hzero
    exact ⟨n, hn, refinesNonzero_of_zero hbounded (BinaryFn.zero_mul_onValues hr)⟩
  · exact (hrefines.smartBinary (by decide) hb).mono fun _ _ h => h.refinesNonzero

theorem Refines.smartMul (ha : a.Refines read v) (hb : b.RefinesNonzero read w) :
    Follows (RefinesNonzero read) (Node.smartBinary .mul a b) (BinaryFn.mul.onValues v w) := by
  rcases hb.refines with hzero | hrefines
  · intro r hr
    obtain ⟨n, hn, hbounded⟩ :=
      exists_bounded_smartBinary (f := .mul) (by decide) ha.bounded hb.bounded hr
    obtain ⟨s, rfl⟩ := Value.exists_of_isZero hzero
    exact ⟨n, hn, refinesNonzero_of_zero hbounded (BinaryFn.mul_zero_onValues hr)⟩
  · exact (ha.smartBinary (by decide) hrefines).mono fun _ _ h => h.refinesNonzero

end Node

end FormulaCalculus
