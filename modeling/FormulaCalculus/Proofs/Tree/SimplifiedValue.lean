import FormulaCalculus.Proofs.Alike.Broadcasting
import FormulaCalculus.Proofs.Scalar.DoubleLaws
import FormulaCalculus.Proofs.Tree.Simplification

/-!
Simplified trees keep the value. Whatever the constants of two trees are, the simplified tree of a
function of them has a value as soon as the plain tree has one that is not the undefined symbol,
and it matches that one: it stretches to its shape and has its entries there.
-/

namespace FormulaCalculus

variable {α β : Type} [Scalar α] [LawfulRounding α]

/-- A power with exponent one is the base, also where a base with value zero becomes the symbol. -/
theorem BinaryFn.matches_pow_unity {v r : Value α} {s : Shape}
    (h : pow.onValues v (.symbol (.unity s)) = .ok r) : v.Matches r := by
  cases v with
  | tensor a => exact Value.matches_of_stretchesTo (Value.tensor_stretchesTo_of_combineWith h)
  | symbol c =>
    obtain ⟨e, he, h⟩ := exists_of_bind_eq_ok h
    obtain ⟨u, hu, he⟩ := exists_of_bind_eq_ok he
    obtain rfl := Except.ok.inj he
    obtain rfl := Except.ok.inj h
    have hcu : c.shape.StretchesTo u := (Shape.join?_eq_some (Tensor.joinShapes_eq_ok.mp hu)).1
    have hsame : (Value.symbol c).Matches (.symbol (c.withShape u)) :=
      Value.matches_of_stretchesTo (Value.symbol_stretchesTo c hcu)
    unfold Constant.powIn
    split_ifs with hzero
    · apply Value.matches_symbol hcu
      cases c with
      | zero r => exact .refl _
      | number n =>
        obtain ⟨hre, him⟩ := Bool.and_eq_true_iff.mp hzero
        exact ⟨Or.inl hre, Or.inl him⟩
      | _ => nomatch hzero
    · cases c with
      | zero r => exact absurd rfl hzero
      | number n =>
        have hshape := Number.shape_ofNumber { n with shape := u }
        have hvalue := Number.value_ofNumber_alike { n with shape := u }
        exact Value.matches_symbol (hshape.symm ▸ hcu) hvalue.symm
      | _ => exact hsame

namespace Node

variable {read : β → Tensor α} {a b n : Node α β} {v w r : Value α}

/-- A simplified function of a tree has the value of the function. -/
theorem exists_smartUnary_matches (f : UnaryFn) (hv : a.eval read = .ok v) :
    ∃ q, (smartUnary f a).eval read = .ok q ∧ q.Matches (f.onValue v) := by
  fun_cases smartUnary f a with
  | case1 =>
    obtain rfl := Except.ok.inj hv
    exact ⟨_, rfl, .refl _⟩
  | case2 a =>
    obtain ⟨q, hq, hv⟩ := exists_of_bind_eq_ok hv
    obtain rfl := Except.ok.inj hv
    exact ⟨q, hq, Value.matches_neg_neg q⟩
  | case3 =>
    refine ⟨f.onValue v, ?_, .refl _⟩
    rw [eval, hv]
    rfl

/-- What a simplified tree stands for, it has the value of, unless that is undefined. -/
theorem Simplifies.exists_matches {f : BinaryFn} (h : Simplifies f a b n)
    (hv : a.eval read = .ok v) (hw : b.eval read = .ok w) (hr : f.onValues v w = .ok r) :
    r.IsNan ∨ ∃ q, n.eval read = .ok q ∧ q.Matches r := by
  -- an opposite matches the opposite of the operand, which stretches to the value
  have hneg {x : Node α β} {y : Value α} (hx : x.eval read = .ok y)
      (hr : (UnaryFn.neg.onValue y).StretchesTo r) :
      ∃ q, (smartUnary .neg x).eval read = .ok q ∧ q.Matches r := by
    obtain ⟨q, hq, hmatches⟩ := exists_smartUnary_matches .neg hx
    exact ⟨q, hq, hmatches.trans (Value.matches_of_stretchesTo hr)⟩
  cases h with
  | keepLeft _ hc =>
    obtain rfl := Except.ok.inj hw
    exact Or.inr ⟨v, hv, Value.matches_of_stretchesTo (hc.stretchesTo hr)⟩
  | keepRight _ hc =>
    obtain rfl := Except.ok.inj hv
    exact Or.inr ⟨w, hw, Value.matches_of_stretchesTo (hc.stretchesTo hr)⟩
  | negLeft _ hc =>
    obtain rfl := Except.ok.inj hw
    exact Or.inr (hneg hv (hc.stretchesTo hr))
  | negRight _ hc =>
    obtain rfl := Except.ok.inj hv
    exact Or.inr (hneg hw (hc.stretchesTo hr))
  | zeroMul s _ =>
    obtain rfl := Except.ok.inj hv
    exact (BinaryFn.zero_mul_onValues hr).imp_right fun hzero =>
      ⟨_, rfl, Value.matches_of_stretchesTo hzero⟩
  | mulZero s _ =>
    obtain rfl := Except.ok.inj hw
    exact (BinaryFn.mul_zero_onValues hr).imp_right fun hzero =>
      ⟨_, rfl, Value.matches_of_stretchesTo hzero⟩
  | powUnity s _ =>
    obtain rfl := Except.ok.inj hw
    exact Or.inr ⟨v, hv, BinaryFn.matches_pow_unity hr⟩
  | powZero s _ =>
    obtain rfl := Except.ok.inj hw
    exact Or.inr ⟨_, rfl, Value.matches_of_stretchesTo (BinaryFn.pow_zero_onValues hr)⟩

/-- A simplified function of two trees is there with the value of the function, unless that is
undefined. -/
theorem exists_smartBinary_matches {f : BinaryFn} (hr : (binary f a b).eval read = .ok r) :
    r.IsNan ∨ ∃ n, smartBinary f a b = .ok n ∧ ∃ q, n.eval read = .ok q ∧ q.Matches r := by
  obtain ⟨v, hv, h⟩ := exists_of_bind_eq_ok hr
  obtain ⟨w, hw, h⟩ := exists_of_bind_eq_ok h
  rcases smartBinary_cases f a b with ⟨c, d, rfl, rfl, hfold⟩ | ⟨n, hn, hsmart⟩ | hplain
  · obtain rfl := Except.ok.inj hv
    obtain rfl := Except.ok.inj hw
    obtain ⟨e, he, h⟩ := exists_of_bind_eq_ok h
    obtain rfl := Except.ok.inj h
    refine Or.inr ⟨constant e, ?_, _, rfl, .refl _⟩
    rw [hfold, he]
    rfl
  · exact (hn.exists_matches hv hw h).imp_right fun hq => ⟨n, hsmart, hq⟩
  · exact Or.inr ⟨binary f a b, hplain, r, hr, .refl r⟩

/-- Simplification keeps values: where a function of trees has a value other than the undefined
symbol, the simplified tree is there, has a value as well, and this one, stretched to the shape of
the other, has the same entries. -/
theorem simplified_matches (read : β → Tensor α) (a b : Node α β) :
    (∀ (f : BinaryFn) (v : Value α), (binary f a b).eval read = .ok v → ¬ v.IsNan →
      ∃ n, smartBinary f a b = .ok n ∧ ∃ w, n.eval read = .ok w ∧ w.Matches v) ∧
    ∀ (f : UnaryFn) (v : Value α), (unary f a).eval read = .ok v → ¬ v.IsNan →
      ∃ w, (smartUnary f a).eval read = .ok w ∧ w.Matches v := by
  constructor
  · intro f v hv hnan
    exact (exists_smartBinary_matches hv).resolve_left hnan
  · intro f v hv _
    obtain ⟨u, hu, hv⟩ := exists_of_bind_eq_ok hv
    obtain rfl := Except.ok.inj hv
    exact exists_smartUnary_matches f hu

/-- Minus one, in a shape with three places, times the opposite of a variable: the simplified tree
is the variable alone. -/
theorem simplified_matches_product :
    let x : Node Double Unit := .variableLeaf "x" ()
    let read : Unit → Tensor Double := fun _ => Tensor.replicate [2, 1] Scalar.half
    let m : Node Double Unit := .constant (.negUnity [3])
    ∃ v, (binary .mul m (unary .neg x)).eval read = .ok v ∧ ¬ v.IsNan ∧
      smartBinary .mul m (unary .neg x) = .ok x ∧ ∃ w, x.eval read = .ok w ∧ w.Matches v := by
  intro x read m
  obtain ⟨r, hr⟩ : ∃ r : Tensor Double, (binary .mul m (unary .neg x)).eval read =
      .ok (.tensor r) := ⟨_, rfl⟩
  have hnan : ¬ (Value.tensor r).IsNan := fun ⟨_, h⟩ => nomatch h
  have hsmart : smartBinary .mul m (unary .neg x) = .ok x := rfl
  obtain ⟨n, hn, hw⟩ := (simplified_matches read m (unary .neg x)).1 .mul _ hr hnan
  obtain rfl := Except.ok.inj (hsmart.symm.trans hn)
  exact ⟨_, hr, hnan, hsmart, hw⟩

end Node

end FormulaCalculus
