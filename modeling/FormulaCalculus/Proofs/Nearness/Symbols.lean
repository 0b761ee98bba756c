import FormulaCalculus.Proofs.Nearness.Trees

/-!
Trees whose values are symbols. Where a tree evaluates to a defined constant, its parts do so too or
one of them is a zero, and its derived tree is near zero. A power that is the symbol for zero is one
of such constants.
-/

namespace FormulaCalculus

variable {α β : Type} [Scalar α]

/-- Whether a value is a defined constant. -/
structure Value.IsKnown (v : Value α) : Prop where
  isSymbol : ∃ c, v = .symbol c
  not_isNan : ¬ v.IsNan

omit [Scalar α] in
theorem Value.isKnown_of_isZero {v : Value α} (h : v.isZero = true) : v.IsKnown := by
  obtain ⟨s, rfl⟩ := Value.exists_of_isZero h
  refine ⟨⟨_, rfl⟩, ?_⟩
  rintro ⟨t, h⟩
  nomatch h

theorem UnaryFn.known_of_onValue {f : UnaryFn} {v : Value α} (h : (f.onValue v).IsKnown) :
    v.IsKnown := by
  refine ⟨?_, fun hnan => h.not_isNan (f.isNan_onValue hnan)⟩
  obtain ⟨c, hc⟩ := h.isSymbol
  cases v with
  | tensor a => nomatch hc
  | symbol d => exact ⟨d, rfl⟩

namespace BinaryFn

variable {f : BinaryFn} {v w r : Value α}

/-- The powers that are defined constants. -/
theorem known_of_pow (hr : pow.onValues v w = .ok r) (h : r.IsKnown) :
    v.IsKnown ∧ w.IsKnown ∨ w.isZero = true ∨ ∃ s, v = .symbol (.unity s) := by
  obtain ⟨⟨e, rfl⟩, hnan⟩ := h
  have hw : ¬ w.IsNan := fun hw => hnan (isNan_onValues_right hw hr)
  cases v with
  | tensor a =>
    cases w with
    | tensor b =>
      obtain ⟨q, -, hr⟩ := exists_of_bind_eq_ok hr
      nomatch hr
    | symbol d =>
      cases d with
      | nan s => exact absurd ⟨s, rfl⟩ hw
      | zero s => exact Or.inr (Or.inl rfl)
      | unity s | negUnity s => exact (symbol_ne_combineWith hr).elim
      | number n => exact (symbol_ne_realPart hr).elim
  | symbol c =>
    cases w with
    | tensor b =>
      cases c with
      | nan s => exact absurd (Value.isNan_of_join hr) hnan
      | unity s => exact Or.inr (Or.inr ⟨s, rfl⟩)
      | zero s | negUnity s => exact (symbol_ne_realPart hr).elim
      | number n => exact (symbol_ne_realPart hr).elim
    | symbol d =>
      by_cases hc : (Value.symbol c).IsNan
      · -- only the exponent zero makes a constant of the undefined value
        obtain ⟨s, hc⟩ := hc
        obtain rfl := Value.symbol.inj hc
        cases d with
        | zero s => exact Or.inr (Or.inl rfl)
        | _ => exact absurd (Value.isNan_of_constants (g := fun u => .nan u) (fun u => rfl) hr) hnan
      · exact Or.inl ⟨⟨⟨c, rfl⟩, hc⟩, ⟨d, rfl⟩, hw⟩

/-- A power that is the symbol for zero is a power of defined constants. -/
theorem known_of_pow_isZero (hr : pow.onValues v w = .ok r) (h : r.isZero = true) :
    v.IsKnown ∧ w.IsKnown := by
  obtain ⟨s, rfl⟩ := Value.exists_of_isZero h
  rcases known_of_pow hr (Value.isKnown_of_isZero rfl) with hknown | hzero | ⟨u, rfl⟩
  · exact hknown
  · obtain ⟨t, rfl⟩ := Value.exists_of_isZero hzero
    nomatch pow_zero_onValues hr
  · cases w with
    | tensor b =>
      obtain ⟨t, -, hr⟩ := exists_of_bind_eq_ok hr
      nomatch hr
    | symbol d =>
      obtain ⟨e, he, hr⟩ := exists_of_bind_eq_ok hr
      obtain ⟨t, -, he⟩ := exists_of_bind_eq_ok he
      obtain rfl := Except.ok.inj he
      cases d <;> nomatch hr

/-- What a defined constant comes of. -/
theorem known_of_onValues (hr : f.onValues v w = .ok r) (h : r.IsKnown) :
    v.IsKnown ∧ w.IsKnown ∨ f.Annihilates v w ∨
      f = pow ∧ (w.isZero = true ∨ ∃ s, v = .symbol (.unity s)) := by
  by_cases hf : f = pow
  · obtain rfl := hf
    exact (known_of_pow hr h).imp_right fun h => Or.inr ⟨rfl, h⟩
  · obtain ⟨⟨e, rfl⟩, hnan⟩ := h
    by_cases hmixed : v.Mixed w
    · have hzero := (symbol_of_mixed hf hmixed hr).resolve_left hnan
      exact Or.inr (Or.inl hzero.2)
    · obtain ⟨c, d, rfl, rfl⟩ := Value.exists_symbols_of_not_mixed hmixed
      refine Or.inl ⟨⟨⟨c, rfl⟩, fun hc => ?_⟩, ⟨d, rfl⟩, fun hd => ?_⟩
      · exact hnan (isNan_onValues_left hf hc hr)
      · exact hnan (isNan_onValues_right hd hr)

end BinaryFn

namespace Node

variable {read : β → Tensor α} {wrt : String} {t : Shape} {p : Nat} {T D n : Node α β}
  {u v : Value α} [LawfulRounding α]

omit [LawfulRounding α] in
theorem vanishes_of_isZeroLeaf (hn : n.Bounded read t) (h : n.isZeroLeaf = true) :
    n.Vanishes read t p := by
  cases n with
  | constant c =>
    cases c with
    | zero s =>
      refine ⟨hn, fun q hq => ?_⟩
      obtain rfl := Except.ok.inj hq
      exact .zero s
    | _ => exact absurd h Bool.false_ne_true
  | _ => exact absurd h Bool.false_ne_true

omit [LawfulRounding α] in
theorem vanishes_of_isZero (hn : n.Bounded read t) (hv : n.eval read = .ok v)
    (h : v.isZero = true) : n.Vanishes read t p := by
  refine ⟨hn, fun q hq => ?_⟩
  obtain rfl := Except.ok.inj (hv.symm.trans hq)
  exact Value.null_of_isZero h

/-- The logarithm of one. -/
theorem vanishes_log {s : Shape} (hn : n.Bounded read t)
    (hv : n.eval read = .ok (.symbol (.unity s))) : (smartUnary .log n).Vanishes read t p := by
  refine vanishes_of_isZero (smartUnary_bounded .log hn) (smartUnary_eval .log hn hv) ?_
  rfl

/-- The rule of a function that evaluates to a defined constant, where the derivatives of the
operands that do so vanish. -/
theorem vanishes_binaryRule_of_known {f : BinaryFn} {a b da db : Node α β} {x y : Value α}
    (ht : t.IsPlace p) (ha : a.Bounded read t) (hb : b.Bounded read t) (hx : a.eval read = .ok x)
    (hy : b.eval read = .ok y) (hda : da.Bounded read t) (hdb : db.Bounded read t)
    (hl : x.IsKnown → da.Vanishes read t p) (hr : y.IsKnown → db.Vanishes read t p)
    (hv : f.onValues x y = .ok v) (hknown : v.IsKnown)
    (hD : Terms.binaryRule f a b da db = .ok D) : D.Vanishes read t p := by
  have hideal : Terms.Ideal (Bounded (α := α) read t) (Vanishes read t p) := ideal_vanishes ht
  have hzero {w : Value α} (h : w.isZero = true) : w.IsKnown := Value.isKnown_of_isZero h
  rcases BinaryFn.known_of_onValues hv hknown with
    ⟨hxknown, hyknown⟩ | (⟨rfl, hx0 | hy0⟩ | ⟨rfl, hx0⟩) | ⟨rfl, hy0 | ⟨s, rfl⟩⟩
  · exact hideal.binaryRule f ha hb (hl hxknown) (hr hyknown) D hD
  -- a part that is zero vanishes itself, and so does its derivative
  · have ha0 := vanishes_of_isZero (p := p) ha hx hx0
    exact hideal.product ha hb hda hdb (Or.inl (hl (hzero hx0))) (Or.inl ha0) D hD
  · have hb0 := vanishes_of_isZero (p := p) hb hy hy0
    exact hideal.product ha hb hda hdb (Or.inr hb0) (Or.inr (hr (hzero hy0))) D hD
  · have ha0 := vanishes_of_isZero (p := p) ha hx hx0
    exact hideal.quotient ha hb hda hdb (Or.inl (hl (hzero hx0))) (Or.inl ha0) D hD
  · have hb0 := vanishes_of_isZero (p := p) hb hy hy0
    exact hideal.pow ha hb hda hdb (Or.inl (hr (hzero hy0))) (Or.inl hb0) D hD
  -- a power of one has no exponent to be known, but the logarithm of one is zero
  · have hunity : (Value.symbol (.unity s) : Value α).IsKnown :=
      ⟨⟨_, rfl⟩, fun ⟨_, h⟩ => nomatch h⟩
    have hlog := vanishes_log (p := p) ha hx
    exact hideal.pow ha hb hda hdb (Or.inr hlog) (Or.inr (hl hunity)) D hD

/-- The derived tree of a tree that evaluates to a defined constant. -/
theorem vanishes_of_known (ht : t.IsPlace p) (hT : T.Bounded read t) (hv : T.eval read = .ok v)
    (hknown : v.IsKnown) (hD : T.derivative wrt = .ok D) : D.Vanishes read t p := by
  induction T generalizing v D with
  | constant c =>
    obtain rfl := Except.ok.inj hD
    exact vanishes_of_isZeroLeaf ⟨trivial, hT.2⟩ rfl
  | tensor a =>
    obtain rfl := Except.ok.inj hv
    obtain ⟨c, hc⟩ := hknown.isSymbol
    nomatch hc
  | variableLeaf name b =>
    obtain rfl := Except.ok.inj hv
    obtain ⟨c, hc⟩ := hknown.isSymbol
    nomatch hc
  | unary f a ih =>
    have ha : a.Bounded read t := hT
    obtain ⟨w, hw, hv⟩ := exists_of_bind_eq_ok hv
    obtain rfl := Except.ok.inj hv
    obtain ⟨du, hdu, hD⟩ := exists_of_bind_eq_ok hD
    have hvanishes := ih ha hw (UnaryFn.known_of_onValue hknown) hdu
    split_ifs at hD
    · obtain rfl := Except.ok.inj hD
      exact hvanishes
    · exact (ideal_vanishes ht).unaryRule f ha hvanishes D hD
  | binary f a b iha ihb =>
    obtain ⟨ha, hb⟩ := hT
    obtain ⟨x, hx, hv⟩ := exists_of_bind_eq_ok hv
    obtain ⟨y, hy, hv⟩ := exists_of_bind_eq_ok hv
    obtain ⟨dl, hdl, hD⟩ := exists_of_bind_eq_ok hD
    obtain ⟨dr, hdr, hD⟩ := exists_of_bind_eq_ok hD
    have hdlt := (inherited_bounded ht.ne_nil).derivative ha hdl
    have hdrt := (inherited_bounded ht.ne_nil).derivative hb hdr
    split_ifs at hD with hleaves
    · obtain ⟨hl, hr⟩ := Bool.and_eq_true_iff.mp hleaves
      exact (ideal_vanishes ht).add dl dr (vanishes_of_isZeroLeaf hdlt hl)
        (vanishes_of_isZeroLeaf hdrt hr) D hD
    · exact vanishes_binaryRule_of_known ht ha hb hx hy hdlt hdrt (fun h => iha ha hx h hdl)
        (fun h => ihb hb hy h hdr) hv hknown hD

end Node

end FormulaCalculus
