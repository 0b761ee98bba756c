import FormulaCalculus.Proofs.Algebra.Outcome
import FormulaCalculus.Proofs.Nearness.Entries

/-!
Values that are near at a place: one of them is the undefined symbol, or they are the same constant,
or both are real and have near entries there. Sums, differences and products of near values are
near, and so are the quotients of near values by one divisor. Values that are near the symbol for
zero are absorbed by products and quotients as that is.
-/

namespace FormulaCalculus

open Scalar (isNaN)
open LawfulRounding
open Shape (join?)
open ComplexNumber (isReal_ofReal)

variable {α : Type} [Scalar α]

namespace Value

/-- Whether two real values have near entries at a place, and are the same if both are symbols. -/
structure NearReal (t : Shape) (p : Nat) (v w : Value α) : Prop where
  left : v.IsReal
  right : w.IsReal
  near : Scalar.Near (v.entryAt t p) (w.entryAt t p)
  same : ∀ c d, v = symbol c → w = symbol d → c.withShape t = d.withShape t

/-- Whether two values are the same constant or near at a place, unless one is undefined. -/
inductive Near (t : Shape) (p : Nat) : Value α → Value α → Prop
  | undefinedLeft {v w : Value α} (h : v.IsNan) : Near t p v w
  | undefinedRight {v w : Value α} (h : w.IsNan) : Near t p v w
  | symbols {c d : Constant α} (h : c.withShape t = d.withShape t) : Near t p (symbol c) (symbol d)
  | reals {v w : Value α} (h : NearReal t p v w) : Near t p v w

/-- Whether one of two values is a tensor. -/
def Mixed (v w : Value α) : Prop := v.tensor?.isSome = true ∨ w.tensor?.isSome = true

variable {t : Shape} {p : Nat} {v v' w w' r r' : Value α} {c d : Constant α}

omit [Scalar α] in
theorem exists_symbols_of_not_mixed (h : ¬ v.Mixed w) : ∃ c d, v = symbol c ∧ w = symbol d := by
  cases v with
  | tensor a => exact absurd (Or.inl rfl) h
  | symbol c =>
    cases w with
    | tensor b => exact absurd (Or.inr rfl) h
    | symbol d => exact ⟨c, d, rfl, rfl⟩

omit [Scalar α] in
theorem isNan_of_stretchesTo (h : v.StretchesTo w) (hw : w.IsNan) : v.IsNan := by
  obtain ⟨s, rfl⟩ := hw
  cases h with
  | @symbol c d h =>
    cases c with
    | nan r => exact ⟨r, rfl⟩
    | _ => nomatch h.eq_withShape

theorem value_congr (h : c.withShape t = d.withShape t) : c.value = d.value := by
  have hvalue := congrArg Constant.value h
  rwa [Constant.value_withShape, Constant.value_withShape] at hvalue

variable [LawfulRounding α]

theorem Near.refl (v : Value α) : Near t p v v := by
  cases v with
  | tensor a => exact .reals ⟨trivial, trivial, near_refl _, fun c d h => nomatch h⟩
  | symbol c => exact .symbols rfl

theorem NearReal.symm (h : NearReal t p v w) : NearReal t p w v :=
  ⟨h.right, h.left, near_symm h.near, fun c d hc hd => (h.same d c hd hc).symm⟩

theorem Near.symm (h : Near t p v w) : Near t p w v := by
  cases h with
  | undefinedLeft h => exact .undefinedRight h
  | undefinedRight h => exact .undefinedLeft h
  | symbols h => exact .symbols h.symm
  | reals h => exact .reals h.symm

omit [LawfulRounding α] in
/-- What is near after stretching is near before. -/
theorem Near.of_stretchesTo (hv : v.StretchesTo v') (hv' : v'.shape.StretchesTo t)
    (h : Near t p v' w) : Near t p v w := by
  cases h with
  | undefinedLeft h => exact .undefinedLeft (isNan_of_stretchesTo hv h)
  | undefinedRight h => exact .undefinedRight h
  | symbols h =>
    cases hv with
    | symbol hv =>
      rw [hv.eq_withShape, Constant.withShape_withShape] at h
      exact .symbols h
  | reals h =>
    refine .reals ⟨?_, h.right, ?_, fun c d hc hd => ?_⟩
    · cases hv with
      | tensor hv => trivial
      | symbol hv =>
        have hreal : Constant.IsReal _ := h.left
        rw [hv.eq_withShape, Constant.IsReal, Constant.value_withShape] at hreal
        exact hreal
    · rw [entryAt_stretchesTo hv hv']
      exact h.near
    · obtain rfl := hc
      cases hv with
      | @symbol _ c' hv =>
        have hsame := h.same c' d rfl hd
        rwa [hv.eq_withShape, Constant.withShape_withShape] at hsame

theorem near_of_stretches (h : v.StretchesTo w) (hw : w.shape.StretchesTo t) : Near t p v w :=
  (Near.refl w).of_stretchesTo h hw

end Value

namespace BinaryFn

open Value (Near NearReal Mixed)

/-- Whether a function gives the symbol for zero for an operand that is it. -/
def Annihilates (f : BinaryFn) (v w : Value α) : Prop :=
  f = mul ∧ (v.isZero = true ∨ w.isZero = true) ∨ f = div ∧ v.isZero = true

variable {f : BinaryFn} {t : Shape} {p : Nat} {v v' w w' r r' : Value α} {c d e : Constant α}

omit [Scalar α] in
theorem symbol_ne_combineWith {β : Type} {m : Except (AlgebraError α) β} {a : Tensor α}
    {g : β → α → α} (h : (m >>= fun y => a.combineWith (g y) c) = .ok (.symbol e)) : False := by
  obtain ⟨y, -, h⟩ := exists_of_bind_eq_ok h
  obtain ⟨b, -, h⟩ := exists_of_bind_eq_ok h
  nomatch h

theorem symbol_ne_realPart {j : Except (AlgebraError α) Shape} {a : Tensor α} {name : String}
    {g : α → α → α} (h : (j >>= fun _ => Value.realPart name d >>= fun y => a.combineWith (g y) c) =
      .ok (.symbol e)) : False := by
  obtain ⟨u, -, h⟩ := exists_of_bind_eq_ok h
  exact symbol_ne_combineWith h

theorem symbol_of_onTensorConstant {a : Tensor α} (hf : f ≠ .pow)
    (h : f.onValues (.tensor a) (.symbol d) = .ok (.symbol e)) :
    (Value.symbol e).IsNan ∨
      (Value.symbol e).isZero = true ∧ f.Annihilates (.tensor a) (.symbol d) := by
  cases d with
  | nan s => exact Or.inl (isNan_onValues_right ⟨s, rfl⟩ h)
  | zero s =>
    cases f with
    | add | sub => exact (symbol_ne_combineWith h).elim
    | mul =>
      refine (mul_zero_onValues h).imp_right fun hs => ⟨?_, Or.inl ⟨rfl, Or.inr rfl⟩⟩
      exact Value.isZero_of_stretchesTo rfl hs
    | div => exact Or.inl (Value.isNan_of_join h)
    | pow => exact absurd rfl hf
    | atan2 => exact (symbol_ne_realPart h).elim
  | unity s | negUnity s =>
    cases f with
    | mul | div => exact (symbol_ne_combineWith h).elim
    | add | sub | atan2 => exact (symbol_ne_realPart h).elim
    | pow => exact absurd rfl hf
  | number n => cases f <;> exact (symbol_ne_realPart h).elim

theorem symbol_of_onConstantTensor {b : Tensor α} (hf : f ≠ .pow)
    (h : f.onValues (.symbol c) (.tensor b) = .ok (.symbol e)) :
    (Value.symbol e).IsNan ∨
      (Value.symbol e).isZero = true ∧ f.Annihilates (.symbol c) (.tensor b) := by
  cases c with
  | nan s => exact Or.inl (isNan_onValues_left hf ⟨s, rfl⟩ h)
  | zero s =>
    cases f with
    | add | sub => exact (symbol_ne_combineWith h).elim
    | mul =>
      refine (zero_mul_onValues h).imp_right fun hs => ⟨?_, Or.inl ⟨rfl, Or.inl rfl⟩⟩
      exact Value.isZero_of_stretchesTo rfl hs
    | div =>
      by_cases hdivisor : b.isDivisor = true
      · have hsymbol := (zero_div_of_isDivisor hdivisor).symm.trans h
        have hs := Value.symbol_stretchesTo_of_join (c := .zero s) (Or.inl rfl) hsymbol
        exact Or.inr ⟨Value.isZero_of_stretchesTo rfl hs, Or.inr ⟨rfl, rfl⟩⟩
      · have htensor := (zero_div_of_not_isDivisor hdivisor).symm.trans h
        exact (symbol_ne_combineWith htensor).elim
    | pow => exact absurd rfl hf
    | atan2 => exact (symbol_ne_realPart h).elim
  | unity s | negUnity s =>
    cases f with
    | mul => exact (symbol_ne_combineWith h).elim
    | add | sub | div | atan2 => exact (symbol_ne_realPart h).elim
    | pow => exact absurd rfl hf
  | number n => cases f <;> exact (symbol_ne_realPart h).elim

/-- A symbol that comes of a tensor is undefined, or a zero that was there before. -/
theorem symbol_of_mixed (hf : f ≠ .pow) (hmixed : v.Mixed w)
    (h : f.onValues v w = .ok (.symbol e)) :
    (Value.symbol e).IsNan ∨ (Value.symbol e).isZero = true ∧ f.Annihilates v w := by
  cases v with
  | tensor a =>
    cases w with
    | tensor b =>
      obtain ⟨q, -, h⟩ := exists_of_bind_eq_ok h
      nomatch h
    | symbol d => exact symbol_of_onTensorConstant hf h
  | symbol c =>
    cases w with
    | tensor b => exact symbol_of_onConstantTensor hf h
    | symbol d => rcases hmixed with hmixed | hmixed <;> nomatch hmixed

theorem zero_of_annihilates (h : f.Annihilates v w) (hr : f.onValues v w = .ok (.symbol e)) :
    (Value.symbol e).IsNan ∨ (Value.symbol e).isZero = true := by
  have hstretches {s : Shape} (hs : (Value.symbol (.zero s)).StretchesTo (.symbol e)) :
      (Value.symbol e).isZero = true := Value.isZero_of_stretchesTo rfl hs
  rcases h with ⟨rfl, hzero | hzero⟩ | ⟨rfl, hzero⟩
  · obtain ⟨s, rfl⟩ := Value.exists_of_isZero hzero
    exact (zero_mul_onValues hr).imp_right hstretches
  · obtain ⟨s, rfl⟩ := Value.exists_of_isZero hzero
    exact (mul_zero_onValues hr).imp_right hstretches
  · obtain ⟨s, rfl⟩ := Value.exists_of_isZero hzero
    cases w with
    | tensor b =>
      have hmixed : (Value.symbol (.zero s)).Mixed (.tensor b) := Or.inr rfl
      exact (symbol_of_mixed (f := .div) (by decide) hmixed hr).imp_right And.left
    | symbol d =>
      obtain ⟨q, hq, hr⟩ := exists_of_bind_eq_ok hr
      obtain rfl := Value.symbol.inj (Except.ok.inj hr)
      obtain ⟨u, -, hq⟩ := exists_of_bind_eq_ok hq
      obtain rfl := Except.ok.inj hq
      rw [Constant.divIn]
      split_ifs
      · exact Or.inl ⟨u, rfl⟩
      · cases d <;> first | exact Or.inl ⟨u, rfl⟩ | exact Or.inr rfl

/-- The same function of constants that are the same in one shape. -/
theorem near_onSymbols {c c' d d' : Constant α} (hc : c.withShape t = c'.withShape t)
    (hd : d.withShape t = d'.withShape t) (hr : f.onValues (.symbol c) (.symbol d) = .ok r)
    (hr' : f.onValues (.symbol c') (.symbol d') = .ok r') : Near t p r r' := by
  obtain ⟨e, he, hr⟩ := exists_of_bind_eq_ok hr
  obtain rfl := Except.ok.inj hr
  obtain ⟨e', he', hr'⟩ := exists_of_bind_eq_ok hr'
  obtain rfl := Except.ok.inj hr'
  obtain ⟨u, hu, hut⟩ := Shape.exists_join? (Shape.StretchesTo.refl t) (.refl t)
  have hstretched := (onConstants_eq_ok he).2 t t u hu
  rw [hc, hd, (onConstants_eq_ok he').2 t t u hu] at hstretched
  have hsame := congrArg (Constant.withShape t) (Except.ok.inj hstretched)
  rw [Constant.withShape_withShape, Constant.withShape_withShape] at hsame
  exact .symbols hsame.symm

theorem annihilates_of_same (h : f.Annihilates v w) (hv : NearReal t p v v')
    (hw : NearReal t p w w') (hsymbols : ¬ v'.Mixed w') : f.Annihilates v' w' := by
  obtain ⟨c, d, rfl, rfl⟩ := Value.exists_symbols_of_not_mixed hsymbols
  have hzero {x : Value α} {c : Constant α} (hx : NearReal t p x (.symbol c))
      (h : x.isZero = true) : (Value.symbol c).isZero = true := by
    obtain ⟨s, rfl⟩ := Value.exists_of_isZero h
    have hsame := hx.same (.zero s) c rfl rfl
    cases c with
    | zero r => rfl
    | _ => nomatch hsame
  rcases h with ⟨rfl, h⟩ | ⟨rfl, h⟩
  · exact Or.inl ⟨rfl, h.imp (hzero hv) (hzero hw)⟩
  · exact Or.inr ⟨rfl, hzero hv h⟩

variable [LawfulRounding α]

/-- A function of real values that are near at a place. -/
theorem near_onReals (hf : f.IsArithmetic) (ht : t.IsPlace p) (hv : NearReal t p v v')
    (hw : NearReal t p w w') (hdiv : f = .div → w.entryAt t p = w'.entryAt t p)
    (hvt : v.shape.StretchesTo t) (hwt : w.shape.StretchesTo t) (hvt' : v'.shape.StretchesTo t)
    (hwt' : w'.shape.StretchesTo t) (hr : f.onValues v w = .ok r)
    (hr' : f.onValues v' w' = .ok r') : Near t p r r' := by
  have hentry := yieldsEntry_onValues hf ht hv.left hw.left hvt hwt hr
  have hentry' := yieldsEntry_onValues hf ht hv.right hw.right hvt' hwt' hr'
  have hnear := near_of_yields hf hv.near hw.near hdiv hentry.yields hentry'.yields
  have hzeros {e e' : Constant α} (h : (Value.symbol e).isZero = true)
      (h' : (Value.symbol e').isZero = true) : Near t p (.symbol e) (.symbol e') := by
    obtain ⟨s, heq⟩ := Value.exists_of_isZero h
    obtain ⟨s', heq'⟩ := Value.exists_of_isZero h'
    rw [heq, heq']
    exact .symbols rfl
  by_cases hresult : r.Mixed r'
  · refine .reals ⟨hentry.isReal, hentry'.isReal, hnear, fun e e' he he' => ?_⟩
    rw [he, he'] at hresult
    rcases hresult with h | h <;> nomatch h
  · obtain ⟨e, e', rfl, rfl⟩ := Value.exists_symbols_of_not_mixed hresult
    -- symbols come of the same symbols, or one of them of a tensor and so of a zero
    by_cases hmixed : v.Mixed w
    · rcases symbol_of_mixed hf.1 hmixed hr with hnan | ⟨hzero, hannihilates⟩
      · exact .undefinedLeft hnan
      · have hresult' : (Value.symbol e').IsNan ∨ (Value.symbol e').isZero = true := by
          by_cases hmixed' : v'.Mixed w'
          · exact (symbol_of_mixed hf.1 hmixed' hr').imp_right And.left
          · exact zero_of_annihilates (annihilates_of_same hannihilates hv hw hmixed') hr'
        exact hresult'.elim .undefinedRight (hzeros hzero)
    · by_cases hmixed' : v'.Mixed w'
      · rcases symbol_of_mixed hf.1 hmixed' hr' with hnan | ⟨hzero, hannihilates⟩
        · exact .undefinedRight hnan
        · have hannihilates' := annihilates_of_same hannihilates hv.symm hw.symm hmixed
          exact (zero_of_annihilates hannihilates' hr).elim .undefinedLeft (hzeros · hzero)
      · obtain ⟨c, d, rfl, rfl⟩ := Value.exists_symbols_of_not_mixed hmixed
        obtain ⟨c', d', rfl, rfl⟩ := Value.exists_symbols_of_not_mixed hmixed'
        exact near_onSymbols (hv.same c c' rfl rfl) (hw.same d d' rfl rfl) hr hr'

/-- A constant that meets a tensor is real. -/
theorem isReal_of_mixed (hmixed : v.Mixed w) (h : f.onValues v w = .ok r) :
    v.IsReal ∧ w.IsReal := by
  obtain ⟨u, -, hmeets, -⟩ := onValues_ok_iff.mp ⟨r, h⟩
  have hreal {c : Constant α} (h : (!c.value.isReal) = false) : c.IsReal := by
    rwa [Bool.not_eq_false'] at h
  cases v with
  | tensor a =>
    cases w with
    | tensor b => exact ⟨trivial, trivial⟩
    | symbol d => exact ⟨trivial, hreal hmeets⟩
  | symbol c =>
    cases w with
    | tensor b => exact ⟨hreal hmeets, trivial⟩
    | symbol d => rcases hmixed with h | h <;> nomatch h

theorem nearReal_of_same (ht : t.IsPlace p) (h : c.withShape t = d.withShape t)
    (hreal : c.IsReal ∨ d.IsReal) (hc : c.shape.StretchesTo t) (hd : d.shape.StretchesTo t) :
    NearReal t p (.symbol c) (.symbol d) := by
  have hvalue := Value.value_congr h
  have hboth : c.IsReal ∧ d.IsReal := by
    rw [Constant.IsReal, Constant.IsReal, hvalue] at hreal ⊢
    exact ⟨or_self_iff.mp hreal, or_self_iff.mp hreal⟩
  refine ⟨hboth.1, hboth.2, ?_, fun c' d' hc' hd' => ?_⟩
  · rw [Value.entryAt_symbol ht hc, Value.entryAt_symbol ht hd, Constant.real, Constant.real,
      hvalue]
    exact near_refl _
  · obtain rfl := Value.symbol.inj hc'
    obtain rfl := Value.symbol.inj hd'
    exact h

/-- A function of values that are near at a place; what they are divided by has to be the same. -/
theorem near_onValues (hf : f.IsArithmetic) (ht : t.IsPlace p) (hv : Near t p v v')
    (hw : Near t p w w') (hdiv : f = .div → w.StretchesTo w')
    (hvt : v.shape.StretchesTo t) (hwt : w.shape.StretchesTo t) (hvt' : v'.shape.StretchesTo t)
    (hwt' : w'.shape.StretchesTo t) (hr : f.onValues v w = .ok r)
    (hr' : f.onValues v' w' = .ok r') : Near t p r r' := by
  have hentries (h : f = .div) : w.entryAt t p = w'.entryAt t p :=
    Value.entryAt_stretchesTo (hdiv h) hwt'
  cases hv with
  | undefinedLeft h => exact .undefinedLeft (isNan_onValues_left hf.1 h hr)
  | undefinedRight h => exact .undefinedRight (isNan_onValues_left hf.1 h hr')
  | symbols hc =>
    cases hw with
    | undefinedLeft h => exact .undefinedLeft (isNan_onValues_right h hr)
    | undefinedRight h => exact .undefinedRight (isNan_onValues_right h hr')
    | symbols hd => exact near_onSymbols hc hd hr hr'
    | reals hw =>
      by_cases hmixed : w.Mixed w'
      · -- a constant that meets a tensor on one side is real on both
        have hreal := hmixed.imp (fun h => (isReal_of_mixed (Or.inr h) hr).1)
          (fun h => (isReal_of_mixed (Or.inr h) hr').1)
        exact near_onReals hf ht (nearReal_of_same ht hc hreal hvt hvt') hw hentries
          hvt hwt hvt' hwt' hr hr'
      · obtain ⟨d, d', rfl, rfl⟩ := Value.exists_symbols_of_not_mixed hmixed
        exact near_onSymbols hc (hw.same d d' rfl rfl) hr hr'
  | reals hv =>
    cases hw with
    | undefinedLeft h => exact .undefinedLeft (isNan_onValues_right h hr)
    | undefinedRight h => exact .undefinedRight (isNan_onValues_right h hr')
    | symbols hd =>
      by_cases hmixed : v.Mixed v'
      · have hreal := hmixed.imp (fun h => (isReal_of_mixed (Or.inl h) hr).2)
          (fun h => (isReal_of_mixed (Or.inl h) hr').2)
        exact near_onReals hf ht hv (nearReal_of_same ht hd hreal hwt hwt') hentries
          hvt hwt hvt' hwt' hr hr'
      · obtain ⟨c, c', rfl, rfl⟩ := Value.exists_symbols_of_not_mixed hmixed
        exact near_onSymbols (hv.same c c' rfl rfl) hd hr hr'
    | reals hw => exact near_onReals hf ht hv hw hentries hvt hwt hvt' hwt' hr hr'

end BinaryFn

namespace Value

/-! ### Opposites -/

variable {t : Shape} {p : Nat} {v w r : Value α} {c : Constant α} [LawfulRounding α]

/-- The entry of the opposite of a real value. -/
theorem entryAt_neg (ht : t.IsPlace p) (hv : v.IsReal) (hvt : v.shape.StretchesTo t) :
    (UnaryFn.neg.onValue v).IsReal ∧
      (isNaN ((UnaryFn.neg.onValue v).entryAt t p) ∨
        (UnaryFn.neg.onValue v).entryAt t p == -v.entryAt t p) := by
  cases v with
  | tensor a =>
    refine ⟨trivial, ?_⟩
    change isNaN ((tensor (a.map _)).entryAt t p) ∨ (tensor (a.map _)).entryAt t p == _
    rw [entryAt_map ht hvt]
    exact isNaN_or_beq_self _
  | symbol c =>
    have hneg : (UnaryFn.neg.onConstant c).value = (c.negIn t).value := by
      rw [Constant.negIn_eq, Constant.value_withShape]
    have hshape : (UnaryFn.neg.onConstant c).shape.StretchesTo t := by
      rwa [UnaryFn.shape_onConstant]
    constructor
    · change (UnaryFn.neg.onConstant c).value.isReal = true
      rw [hneg]
      exact Constant.isReal_negIn hv
    · change isNaN ((symbol (UnaryFn.neg.onConstant c)).entryAt t p) ∨
        (symbol (UnaryFn.neg.onConstant c)).entryAt t p == _
      rw [entryAt_symbol ht hshape, entryAt_symbol ht hvt, Constant.real, hneg]
      exact Constant.negIn_real c t

theorem Near.neg (h : Near t p v w) (ht : t.IsPlace p) (hv : v.shape.StretchesTo t)
    (hw : w.shape.StretchesTo t) : Near t p (UnaryFn.neg.onValue v) (UnaryFn.neg.onValue w) := by
  have hconstants {c d : Constant α} (h : c.withShape t = d.withShape t) :
      (UnaryFn.neg.onConstant c).withShape t = (UnaryFn.neg.onConstant d).withShape t := by
    rw [← UnaryFn.onConstant_withShape, h, UnaryFn.onConstant_withShape]
  cases h with
  | undefinedLeft h => exact .undefinedLeft (UnaryFn.isNan_onValue .neg h)
  | undefinedRight h => exact .undefinedRight (UnaryFn.isNan_onValue .neg h)
  | symbols h => exact .symbols (hconstants h)
  | reals h =>
    obtain ⟨hreal, hentry⟩ := entryAt_neg ht h.left hv
    obtain ⟨hreal', hentry'⟩ := entryAt_neg ht h.right hw
    refine .reals ⟨hreal, hreal', near_of_neg h.near hentry hentry', fun c d hc hd => ?_⟩
    -- the opposites are symbols only if the values are
    cases v with
    | tensor a => nomatch hc
    | symbol c' =>
      cases w with
      | tensor b => nomatch hd
      | symbol d' =>
        obtain rfl := symbol.inj hc
        obtain rfl := symbol.inj hd
        exact hconstants (h.same c' d' rfl rfl)

/-! ### Values near zero -/

/-- Whether a value is the symbol for zero at a place, or undefined. -/
inductive Null (t : Shape) (p : Nat) : Value α → Prop
  | undefined {v : Value α} (h : v.IsNan) : Null t p v
  | zero (s : Shape) : Null t p (symbol (.zero s))
  | tensor {a : Tensor α} (h : Scalar.Near (Scalar.zero : α) ((tensor a).entryAt t p)) :
      Null t p (.tensor a)

omit [LawfulRounding α] in
theorem null_of_isZero (h : v.isZero = true) : Null t p v := by
  obtain ⟨s, rfl⟩ := exists_of_isZero h
  exact .zero s

omit [LawfulRounding α] in
theorem Null.isZero (h : (symbol c).Null t p) (hnan : ¬ (symbol c).IsNan) :
    (symbol c).isZero = true := by
  cases h with
  | undefined h => exact absurd h hnan
  | zero s => rfl

theorem Null.near_entry (h : v.Null t p) (ht : t.IsPlace p) (hv : v.shape.StretchesTo t)
    (hnan : ¬ v.IsNan) : Scalar.Near Scalar.zero (v.entryAt t p) := by
  cases h with
  | undefined h => exact absurd h hnan
  | zero s =>
    have hs : s.StretchesTo t := hv
    rw [entryAt_symbol ht (c := .zero s) hs]
    exact near_refl _
  | tensor h => exact h

theorem null_iff_near (ht : t.IsPlace p) {s : Shape} (hs : s.StretchesTo t) :
    Near t p (symbol (.zero s)) v ↔ Null t p v := by
  have hentry : (symbol (.zero s) : Value α).entryAt t p = Scalar.zero := entryAt_symbol ht hs
  constructor
  · intro h
    cases h with
    | undefinedLeft h =>
      obtain ⟨u, h⟩ := h
      nomatch h
    | undefinedRight h => exact .undefined h
    | @symbols _ d h =>
      cases d with
      | zero u => exact .zero u
      | _ => nomatch h
    | reals h =>
      cases v with
      | tensor a => exact .tensor (hentry ▸ h.near)
      | symbol d =>
        have hsame := h.same _ d rfl rfl
        cases d with
        | zero u => exact .zero u
        | _ => nomatch hsame
  · intro h
    cases h with
    | undefined h => exact .undefinedRight h
    | zero u => exact .symbols rfl
    | tensor h =>
      exact .reals ⟨isReal_ofReal _, trivial, hentry.symm ▸ h, fun c d _ hd => nomatch hd⟩

theorem Null.near (hv : v.Null t p) (hw : w.Null t p) (ht : t.IsPlace p)
    (hvt : v.shape.StretchesTo t) (hwt : w.shape.StretchesTo t) : Near t p v w := by
  cases hv with
  | undefined h => exact .undefinedLeft h
  | zero s => exact (null_iff_near ht hvt).mpr hw
  | tensor h =>
    cases hw with
    | undefined h => exact .undefinedRight h
    | zero s => exact ((null_iff_near ht hwt).mpr (.tensor h)).symm
    | tensor h' =>
      have hnear := near_trans (near_symm h) h' isNaN_zero
      exact .reals ⟨trivial, trivial, hnear, fun c d hc _ => nomatch hc⟩

theorem Null.neg (h : v.Null t p) (ht : t.IsPlace p) (hv : v.shape.StretchesTo t) :
    (UnaryFn.neg.onValue v).Null t p := by
  have hself := Shape.StretchesTo.refl t
  have hnear := ((null_iff_near ht hself).mpr h).neg ht hself hv
  exact (null_iff_near ht hself).mp hnear

end Value

namespace BinaryFn

open Value (Near Null)

variable {f : BinaryFn} {t : Shape} {p : Nat} {v w r : Value α} {x y z : α} [LawfulRounding α]

/-- Whether a function gives what is near zero for an operand that is. -/
def Nullifies (t : Shape) (p : Nat) (f : BinaryFn) (v w : Value α) : Prop :=
  f = mul ∧ (v.Null t p ∨ w.Null t p) ∨ f = div ∧ v.Null t p

theorem near_zero_of_yields (hf : f.IsArithmetic)
    (h : f = mul ∧ (Scalar.Near Scalar.zero x ∨ Scalar.Near Scalar.zero y) ∨
      f = div ∧ Scalar.Near Scalar.zero x)
    (hz : f.Yields x y z) : Scalar.Near Scalar.zero z := by
  have hzero {x : α} (h : Scalar.Near Scalar.zero x) (hx : isNaN x = false) : x == Scalar.zero :=
    beq_symm _ _ (beq_of_near h isNaN_zero hx)
  cases hz with
  | undefined h => exact Or.inr (Or.inl h)
  | absorbs _ hz => exact near_of_beq (beq_symm _ _ hz)
  | rounds hz =>
    have hnum := isNaN_of_beq_right hz
    obtain ⟨hx, hy⟩ := isNaN_real hf hnum
    have habsorbs : f.Absorbs x y := by
      rcases h with ⟨rfl, h⟩ | ⟨rfl, h⟩
      · exact h.imp (hzero · hx) (hzero · hy)
      · exact hzero h hx
    exact near_of_beq (beq_symm _ _ (beq_trans _ _ _ hz (real_eq_zero habsorbs hnum)))

/-- A product with what is near zero, and a quotient of it. -/
theorem null_onValues (ht : t.IsPlace p) (h : f.Nullifies t p v w)
    (hvt : v.shape.StretchesTo t) (hwt : w.shape.StretchesTo t) (hr : f.onValues v w = .ok r) :
    r.Null t p := by
  have hf : f.IsArithmetic := by
    rcases h with ⟨rfl, -⟩ | ⟨rfl, -⟩ <;> decide
  by_cases hv : v.IsNan
  · exact .undefined (isNan_onValues_left hf.1 hv hr)
  by_cases hw : w.IsNan
  · exact .undefined (isNan_onValues_right hw hr)
  by_cases hmixed : v.Mixed w
  · -- beside a tensor the result is a symbol by a short cut, or it has entries
    obtain ⟨hvreal, hwreal⟩ := isReal_of_mixed hmixed hr
    cases r with
    | symbol e =>
      rcases symbol_of_mixed hf.1 hmixed hr with hnan | ⟨hzero, -⟩
      · exact .undefined hnan
      · exact Value.null_of_isZero hzero
    | tensor a =>
      have hyields := (yieldsEntry_onValues hf ht hvreal hwreal hvt hwt hr).yields
      refine .tensor (near_zero_of_yields hf ?_ hyields)
      exact h.imp (And.imp_right (Or.imp (·.near_entry ht hvt hv) (·.near_entry ht hwt hw)))
        (And.imp_right (·.near_entry ht hvt hv))
  · obtain ⟨c, d, rfl, rfl⟩ := Value.exists_symbols_of_not_mixed hmixed
    obtain ⟨e, -, hsymbol⟩ := exists_of_bind_eq_ok hr
    obtain rfl := Except.ok.inj hsymbol
    have hannihilates : f.Annihilates (.symbol c) (.symbol d) :=
      h.imp (And.imp_right (Or.imp (·.isZero hv) (·.isZero hw))) (And.imp_right (·.isZero hv))
    rcases zero_of_annihilates hannihilates hr with hnan | hzero
    · exact .undefined hnan
    · exact Value.null_of_isZero hzero

/-- Sums and differences of what is near zero. -/
theorem null_of_add_or_sub (hf : f = add ∨ f = sub) (ht : t.IsPlace p) (hv : v.Null t p)
    (hw : w.Null t p) (hvt : v.shape.StretchesTo t) (hwt : w.shape.StretchesTo t)
    (hr : f.onValues v w = .ok r) : r.Null t p := by
  -- it is near the sum of two zeros, which is zero
  have hself := Shape.StretchesTo.refl t
  obtain ⟨u, hu, hut⟩ := Shape.exists_join? hself hself
  have hjoin : (Tensor.joinShapes t t : Except (AlgebraError α) Shape) = .ok u :=
    Tensor.joinShapes_eq_ok.mpr hu
  have hzeros : f.onValues (.symbol (.zero t)) (.symbol (.zero t)) =
      (.ok (.symbol (.zero u)) : Except (AlgebraError α) (Value α)) := by
    have hsum : f.onConstants (.zero t : Constant α) (.zero t) = .ok (.zero u) := by
      rw [onConstants, Constant.shape, hjoin]
      rcases hf with rfl | rfl <;> rfl
    rw [onValues, hsum]
    rfl
  have harithmetic : f.IsArithmetic ∧ f ≠ div := by
    rcases hf with rfl | rfl <;> decide
  have hnear := near_onValues harithmetic.1 ht ((Value.null_iff_near ht hself).mpr hv)
    ((Value.null_iff_near ht hself).mpr hw) (fun h => absurd h harithmetic.2) hself hself hvt hwt
    hzeros hr
  exact (Value.null_iff_near ht hut).mp hnear

end BinaryFn

end FormulaCalculus
