import FormulaCalculus.Proofs.Derivative.Agreement
import FormulaCalculus.Proofs.Nearness.Symbols

/-!
The derived tree tracks the derivative's value. Neither a zero that only one of the two derivatives
knows of nor an undefined operand makes them differ where both are defined, as long as both take the
same rule at every power.
-/

namespace FormulaCalculus

variable {α β : Type} [Scalar α]

namespace Node

/-- Whether a tree refines a value of a shape that stretches to a given one. -/
structure RefinesWithin (read : β → Tensor α) (t : Shape) (n : Node α β) (v : Value α) : Prop where
  refines : n.Refines read v
  shape : v.shape.StretchesTo t

variable {read : β → Tensor α} {t : Shape} {p : Nat} {a b n : Node α β} {v w r : Value α}

theorem WellFormed.of_mem_subtrees (h : n.WellFormed) {c : Constant α}
    (hc : constant c ∈ n.subtrees) : c.WellFormed := by
  induction n with
  | constant d =>
    obtain rfl := Node.constant.inj (List.mem_singleton.mp hc)
    exact h
  | tensor a => nomatch List.mem_singleton.mp hc
  | variableLeaf name b => nomatch List.mem_singleton.mp hc
  | unary f a ih => exact ih h ((List.mem_cons.mp hc).resolve_left nofun)
  | binary f a b iha ihb =>
    rcases List.mem_append.mp ((List.mem_cons.mp hc).resolve_left nofun) with hc | hc
    · exact iha h.1 hc
    · exact ihb h.2 hc

theorem WellFormed.computes (h : n.WellFormed) (hv : n.eval read = .ok v) : n.Computes read v :=
  ⟨bounded_of_eval (fun _ hc => h.of_mem_subtrees hc) hv, hv⟩

theorem Bounded.wellFormed (h : n.Bounded read t) : n.WellFormed := by
  induction n with
  | constant c => exact h.1
  | tensor a => trivial
  | variableLeaf name b => trivial
  | unary f a ih => exact ih h
  | binary f a b iha ihb => exact ⟨iha h.1, ihb h.2⟩

theorem Computes.refinesWithin (h : n.Computes read v) (hv : v.shape.StretchesTo t) :
    n.RefinesWithin read t v :=
  ⟨h.refines, hv⟩

variable [LawfulRounding α]

theorem RefinesWithin.tracks (h : n.RefinesWithin read t v) (p : Nat) :
    n.Tracks read t p v :=
  h.refines.tracks h.shape

/-- A sum, a difference or a product of trees that track values. -/
theorem Tracks.smartSum {f : BinaryFn} (hf : f = .add ∨ f = .sub ∨ f = .mul) (ht : t.IsPlace p)
    (ha : a.Tracks read t p v) (hb : b.Tracks read t p w) :
    Agrees (Tracks read t p) (Node.smartBinary f a b) (f.onValues v w) := by
  have harithmetic : f.IsArithmetic ∧ f ≠ .div := by
    rcases hf with rfl | rfl | rfl <;> decide
  exact ha.smartBinary harithmetic.1 ht hb fun h => absurd h harithmetic.2

theorem Tracks.smartDiv (ht : t.IsPlace p) (ha : a.Tracks read t p v)
    (hb : b.RefinesWithin read t w) :
    Agrees (Tracks read t p) (Node.smartBinary .div a b) (BinaryFn.div.onValues v w) :=
  ha.smartBinary (by decide) ht (hb.tracks p) fun _ => hb.refines

theorem RefinesWithin.smartUnary (f : UnaryFn) (h : n.RefinesWithin read t v) :
    (smartUnary f n).RefinesWithin read t (f.onValue v) := by
  refine ⟨h.refines.smartUnary f, ?_⟩
  rw [UnaryFn.shape_onValue]
  exact h.shape

theorem RefinesWithin.smartBinary {f : BinaryFn} (hf : f = .add ∨ f = .sub ∨ f = .mul)
    (ha : a.RefinesWithin read t v) (hb : b.RefinesWithin read t w) :
    Agrees (RefinesWithin read t) (smartBinary f a b) (f.onValues v w) := by
  intro n r hn hr
  refine ⟨(ha.refines.smartBinary hf hb.refines).agrees n r hn hr, ?_⟩
  exact Shape.StretchesTo.of_join (BinaryFn.shape_onValues hr) ha.shape hb.shape

theorem RefinesWithin.smartDiv (ha : a.RefinesWithin read t v) (hb : b.Computes read w)
    (hw : w.shape.StretchesTo t) :
    Agrees (RefinesWithin read t) (Node.smartBinary .div a b) (BinaryFn.div.onValues v w) := by
  intro n r hn hr
  refine ⟨(ha.refines.smartDiv hb).agrees n r hn hr, ?_⟩
  exact Shape.StretchesTo.of_join (BinaryFn.shape_onValues hr) ha.shape hw

/-- A power whose base is evaluated as it is, unless it is the symbol for zero. -/
theorem Computes.smartPow (ha : a.Computes read v) (hv : v.shape.StretchesTo t)
    (hb : b.RefinesWithin read t w)
    (hzero : ¬ ∃ r, BinaryFn.pow.onValues v w = .ok r ∧ r.isZero = true) :
    Agrees (RefinesWithin read t) (Node.smartBinary .pow a b) (BinaryFn.pow.onValues v w) := by
  intro n r hn hr
  have hjoin := BinaryFn.shape_onValues hr
  obtain ⟨hvr, hwr⟩ := Shape.join?_eq_some hjoin
  have har := ha.bounded.mono hvr
  have hbr := hb.refines.bounded.mono hwr
  refine ⟨⟨har.smartBinary hbr hn, ?_⟩, Shape.StretchesTo.of_join hjoin hv hb.shape⟩
  rcases hb.refines.eval with hnan | ⟨w₀, hw₀, hw⟩
  · exact Or.inl (BinaryFn.isNan_onValues_right hnan hr)
  · have hdefined := BinaryFn.onValues_stretchesTo (.refl v) hw hr
    obtain ⟨q, hq, hqr⟩ := hdefined.resolve_right fun h => nomatch h.1
    rcases smartBinary_eval hn har hbr ha.eval hw₀ hq with hnan | ⟨-, hq0⟩ | ⟨x, hx, hxq⟩
    · exact Or.inl (hnan.of_stretchesTo hqr)
    · exact absurd ⟨r, hr, Value.isZero_of_stretchesTo hq0 hqr⟩ hzero
    · exact Or.inr ⟨x, hx, hxq.trans hqr⟩

theorem agrees_of_vanishes {m : Except (AlgebraError α) (Node α β)}
    {k : Except (AlgebraError α) (Value α)} (ht : t.IsPlace p)
    (hm : Terms.Gives (Vanishes read t p) m) (hk : Terms.Gives (Value.Vanishes t p) k) :
    Agrees (Tracks read t p) m k :=
  fun n v hn hv => (hm n hn).tracks (hk v hv) ht

end Node

namespace Terms

open Node (Computes RefinesWithin Tracks Agrees Vanishes)

variable [LawfulRounding α] {read : β → Tensor α} {t : Shape} {p : Nat}
  {U L R D DL DR : Node α β} {u l r d dl dr : Value α}

/-- The chain rule of a function of one operand. -/
theorem unaryRule_tracks (f : UnaryFn) (ht : t.IsPlace p) (hu : U.Computes read u)
    (hut : u.shape.StretchesTo t) (hd : D.Tracks read t p d) :
    Agrees (Tracks read t p) (unaryRule f U D) (unaryRule f u d) := by
  have hscalar := Shape.scalar_stretchesTo ht.ne_nil
  have hU := hu.refinesWithin hut
  have htwo : (real Scalar.two : Node α β).RefinesWithin read t (real Scalar.two : Value α) :=
    (real_computes LawfulScalar.two_plain).refinesWithin hscalar
  have hhalf : (real Scalar.half : Node α β).RefinesWithin read t (real Scalar.half : Value α) :=
    (real_computes LawfulScalar.half_plain).refinesWithin hscalar
  have hln10 : (real Scalar.ln10 : Node α β).RefinesWithin read t (real Scalar.ln10 : Value α) :=
    (real_computes LawfulScalar.ln10_plain).refinesWithin hscalar
  have hone : (one : Node α β).RefinesWithin read t (one : Value α) :=
    one_computes.refinesWithin hscalar
  have hsquare := hU.smartUnary .square
  have hproduct {M : Node α β} {m : Value α} (hm : M.RefinesWithin read t m) :
      Agrees (Tracks read t p) (binary .mul M D) (binary .mul m d) :=
    (hm.tracks p).smartSum (f := .mul) (by decide) ht hd
  have hquotient {M N : Node α β} {m n : Value α} (hm : M.Tracks read t p m)
      (hn : N.RefinesWithin read t n) :
      Agrees (Tracks read t p) (binary .div M N) (binary .div m n) :=
    hm.smartDiv ht hn
  -- the derivative is a factor or the dividend; all else is made of the operand alone
  cases f with
  | neg => exact .ok (hd.smartNeg ht)
  | abs =>
    have hshape : (UnaryFn.abs.onValue u).shape.StretchesTo t := (hU.smartUnary .abs).shape
    exact (hU.smartDiv (hu.smartUnary .abs) hshape).bind fun M m hm => hproduct hm
  | sqrt =>
    exact (hproduct hhalf).bind fun M m hm => hquotient hm (hU.smartUnary .sqrt)
  | square => exact (htwo.smartBinary (f := .mul) (by decide) hU).bind fun M m hm => hproduct hm
  | exp => exact hproduct (hU.smartUnary .exp)
  | log => exact hquotient hd hU
  | log10 =>
    exact (hU.smartBinary (f := .mul) (by decide) hln10).bind fun M m hm => hquotient hd hm
  | sin => exact hproduct (hU.smartUnary .cos)
  | cos => exact hproduct ((hU.smartUnary .sin).smartUnary .neg)
  | tan => exact hquotient hd ((hU.smartUnary .cos).smartUnary .square)
  | asin =>
    exact (hone.smartBinary (f := .sub) (by decide) hsquare).bind fun M m hm =>
      hquotient hd (hm.smartUnary .sqrt)
  | acos =>
    exact (hone.smartBinary (f := .sub) (by decide) hsquare).bind fun M m hm =>
      hquotient (hd.smartNeg ht) (hm.smartUnary .sqrt)
  | atan =>
    exact (hone.smartBinary (f := .add) (by decide) hsquare).bind fun M m hm => hquotient hd hm
  | sinh => exact hproduct (hU.smartUnary .cosh)
  | cosh => exact hproduct (hU.smartUnary .sinh)
  | tanh => exact hquotient hd ((hU.smartUnary .cosh).smartUnary .square)
  | asinh =>
    exact (hsquare.smartBinary (f := .add) (by decide) hone).bind fun M m hm =>
      hquotient hd (hm.smartUnary .sqrt)
  | acosh =>
    exact (hsquare.smartBinary (f := .sub) (by decide) hone).bind fun M m hm =>
      hquotient hd (hm.smartUnary .sqrt)
  | atanh =>
    exact (hone.smartBinary (f := .sub) (by decide) hsquare).bind fun M m hm => hquotient hd hm

omit [LawfulRounding α] in
theorem pow_vanishes (hlt : l.shape.StretchesTo t) (hrt : r.shape.StretchesTo t)
    (hzero : ∃ q, BinaryFn.pow.onValues l r = .ok q ∧ q.isZero = true) :
    Gives (Value.Vanishes t p) (binary .pow l r) := by
  intro v hv
  obtain ⟨q, hq, hzero⟩ := hzero
  obtain rfl := Except.ok.inj (hq.symm.trans hv)
  exact ⟨Shape.StretchesTo.of_join (BinaryFn.shape_onValues hq) hlt hrt, Value.null_of_isZero hzero⟩

theorem powRule_vanishes (ht : t.IsPlace p) (hlt : l.shape.StretchesTo t)
    (hrt : r.shape.StretchesTo t) (hdl : dl.shape.StretchesTo t) {x : Value α}
    (hxt : x.shape.StretchesTo t)
    (hzero : ∃ q, BinaryFn.pow.onValues l x = .ok q ∧ q.isZero = true) :
    Gives (Value.Vanishes t p) (binary .pow l x >>= fun q =>
      binary .mul r q >>= fun o => binary .mul o dl) := by
  have hvalues := Value.ideal_vanishes (α := α) ht
  refine (pow_vanishes (p := p) hlt hxt hzero).bind fun q hq => ?_
  refine (hvalues.mul r q hrt hq.shape (Or.inr hq)).bind fun o ho => ?_
  exact hvalues.mul o dl ho.shape hdl (Or.inl ho)

theorem expPowRule_vanishes (ht : t.IsPlace p) (hlt : l.shape.StretchesTo t)
    (hrt : r.shape.StretchesTo t) (hdl : dl.shape.StretchesTo t) (hdr : dr.shape.StretchesTo t)
    (hzero : ∃ q, BinaryFn.pow.onValues l r = .ok q ∧ q.isZero = true) :
    Gives (Value.Vanishes t p) (expPowRule l r dl dr) := by
  have hvalues := Value.ideal_vanishes (α := α) ht
  have hlog : (unary .log l).shape.StretchesTo t := hvalues.unary .log l hlt
  refine (hvalues.gives .mul hdr hlog).bind fun x hx => ?_
  refine (hvalues.gives .mul hrt hdl).bind fun y hy => ?_
  refine (hvalues.gives .div hy hlt).bind fun z hz => ?_
  refine (pow_vanishes (p := p) hlt hrt hzero).bind fun q hq => ?_
  refine (hvalues.gives .add hx hz).bind fun s hs => ?_
  exact hvalues.mul q s hq.shape hs (Or.inl hq)

/-- The rule for a power with a constant exponent. -/
theorem powRule_tracks (ht : t.IsPlace p) (hl : L.Computes read l) (hr : R.Computes read r)
    (hlt : l.shape.StretchesTo t) (hrt : r.shape.StretchesTo t) (hdl : DL.Tracks read t p dl)
    (hknown : l.IsKnown → DL.Vanishes read t p) :
    Agrees (Tracks read t p) (powRule L R DL) (powRule l r dl) := by
  have hR := hr.refinesWithin hrt
  have hone : (one : Node α β).RefinesWithin read t (one : Value α) :=
    one_computes.refinesWithin (Shape.scalar_stretchesTo ht.ne_nil)
  refine (hR.smartBinary (f := .sub) (by decide) hone).bind fun X x hx => ?_
  -- a power that is the symbol for zero may leave a tree that is not, but its base is known
  by_cases hzero : ∃ q, BinaryFn.pow.onValues l x = .ok q ∧ q.isZero = true
  · have hDL : DL.Vanishes read t p := by
      obtain ⟨q, hq, hq0⟩ := hzero
      exact hknown (BinaryFn.known_of_pow_isZero hq hq0).1
    have htrees : Ideal (Node.Bounded (α := α) read t) (Node.Vanishes read t p) :=
      Node.ideal_vanishes ht
    have hvalue := powRule_vanishes (p := p) ht hlt hrt hdl.shape hx.shape hzero
    refine Node.agrees_of_vanishes ht ?_ hvalue
    refine (htrees.gives .pow (hl.bounded.mono hlt) (hx.tracks p).bounded).bind fun P hP => ?_
    refine (htrees.gives .mul (hR.tracks p).bounded hP).bind fun Q hQ => ?_
    exact htrees.mul Q DL hQ hdl.bounded (Or.inr hDL)
  · refine (hl.smartPow hlt hx hzero).bind fun P q hq => ?_
    refine (hR.smartBinary (f := .mul) (by decide) hq).bind fun O o ho => ?_
    exact (ho.tracks p).smartSum (f := .mul) (by decide) ht hdl

/-- The rule for a power with any exponent. -/
theorem expPowRule_tracks (ht : t.IsPlace p) (hl : L.Computes read l) (hr : R.Computes read r)
    (hlt : l.shape.StretchesTo t) (hrt : r.shape.StretchesTo t) (hdl : DL.Tracks read t p dl)
    (hdr : DR.Tracks read t p dr) (hknownl : l.IsKnown → DL.Vanishes read t p)
    (hknownr : r.IsKnown → DR.Vanishes read t p) :
    Agrees (Tracks read t p) (expPowRule L R DL DR) (expPowRule l r dl dr) := by
  have hL := hl.refinesWithin hlt
  have hR := hr.refinesWithin hrt
  by_cases hzero : ∃ q, BinaryFn.pow.onValues l r = .ok q ∧ q.isZero = true
  · have hvalue := expPowRule_vanishes (p := p) ht hlt hrt hdl.shape hdr.shape hzero
    obtain ⟨q, hq, hq0⟩ := hzero
    obtain ⟨hl0, hr0⟩ := BinaryFn.known_of_pow_isZero hq hq0
    have htrees : Ideal (Node.Bounded (α := α) read t) (Node.Vanishes read t p) :=
      Node.ideal_vanishes ht
    refine Node.agrees_of_vanishes ht ?_ hvalue
    exact htrees.expPowRule (hL.tracks p).bounded (hR.tracks p).bounded hdl.bounded
      hdr.bounded (Or.inl (hknownr hr0)) (Or.inr (hknownl hl0))
  · have hlog := (hL.smartUnary .log).tracks p
    refine (hdr.smartSum (f := .mul) (by decide) ht hlog).bind fun X x hx => ?_
    refine ((hR.tracks p).smartSum (f := .mul) (by decide) ht hdl).bind fun Y y hy => ?_
    refine (hy.smartDiv ht hL).bind fun Z z hz => ?_
    refine (hl.smartPow hlt hR hzero).bind fun P q hq => ?_
    refine (hx.smartSum (f := .add) (by decide) ht hz).bind fun S s hs => ?_
    exact (hq.tracks p).smartSum (f := .mul) (by decide) ht hs

/-- The chain rule of a function of two operands. -/
theorem binaryRule_tracks (f : BinaryFn) (ht : t.IsPlace p) (hl : L.Computes read l)
    (hr : R.Computes read r) (hlt : l.shape.StretchesTo t) (hrt : r.shape.StretchesTo t)
    (hdl : DL.Tracks read t p dl) (hdr : DR.Tracks read t p dr)
    (hknownl : l.IsKnown → DL.Vanishes read t p) (hknownr : r.IsKnown → DR.Vanishes read t p)
    (hsame : f = .pow → DR.isZeroLeaf = dr.isZero) :
    Agrees (Tracks read t p) (binaryRule f L R DL DR) (binaryRule f l r dl dr) := by
  have hL := hl.refinesWithin hlt
  have hR := hr.refinesWithin hrt
  have hneg := (hL.tracks p).smartNeg ht
  have hLt := hL.tracks p
  have hRt := hR.tracks p
  cases f with
  | add => exact hdl.smartSum (f := .add) (by decide) ht hdr
  | sub => exact hdl.smartSum (f := .sub) (by decide) ht hdr
  | mul =>
    refine (hdl.smartSum (f := .mul) (by decide) ht hRt).bind fun X x hx => ?_
    refine (hLt.smartSum (f := .mul) (by decide) ht hdr).bind fun Y y hy => ?_
    exact hx.smartSum (f := .add) (by decide) ht hy
  | div =>
    refine (hdl.smartSum (f := .mul) (by decide) ht hRt).bind fun X x hx => ?_
    refine (hneg.smartSum (f := .mul) (by decide) ht hdr).bind fun Y y hy => ?_
    refine (hx.smartSum (f := .add) (by decide) ht hy).bind fun Z z hz => ?_
    exact hz.smartDiv ht (hR.smartUnary .square)
  | pow =>
    have hbranch {τ : Type} [Terms α τ] (l r dl dr : τ) : binaryRule .pow l r dl dr =
        if isZero dr then powRule l r dl else expPowRule l r dl dr := rfl
    rw [hbranch, hbranch]
    have hzero : isZero DR = isZero dr := hsame rfl
    rw [hzero]
    split_ifs
    · exact powRule_tracks ht hl hr hlt hrt hdl hknownl
    · exact expPowRule_tracks ht hl hr hlt hrt hdl hdr hknownl hknownr
  | atan2 =>
    have hsquares := (hR.smartUnary .square).smartBinary (f := .add) (by decide)
      (hL.smartUnary .square)
    refine (hRt.smartSum (f := .mul) (by decide) ht hdl).bind fun X x hx => ?_
    refine (hneg.smartSum (f := .mul) (by decide) ht hdr).bind fun Y y hy => ?_
    refine (hx.smartSum (f := .add) (by decide) ht hy).bind fun Z z hz => ?_
    exact hsquares.bind fun W w hw => hz.smartDiv ht hw

end Terms

namespace Node

variable {read : β → Tensor α} {wrt : String} {t : Shape} {p : Nat} {T D : Node α β} {d : Value α}

/-- Whether the exponents of all powers have the symbol for zero as the value of their derivative
where the derived tree is the leaf with it, so that the two derivatives take the same rule. -/
def SamePowerRule (read : β → Tensor α) (wrt : String) (T : Node α β) : Prop :=
  ∀ l r, binary .pow l r ∈ T.subtrees →
    ((∃ s, r.diff read wrt = .ok (.symbol (.zero s))) ↔
      ∃ s, r.derivative wrt = .ok (constant (.zero s)))

variable [LawfulRounding α]

omit [LawfulRounding α] in
theorem tracks_constant {c e : Constant α} (hc : c.WellFormed) (hct : c.shape.StretchesTo t)
    (het : e.shape.StretchesTo t) (h : c.withShape t = e.withShape t) :
    (constant c : Node α β).Tracks read t p (.symbol e) := by
  refine ⟨⟨hc, hct⟩, het, fun q hq => ?_⟩
  obtain rfl := Except.ok.inj hq
  exact .symbols h

theorem Tracks.vanishes_of_isZero (h : D.Tracks read t p d) (ht : t.IsPlace p)
    (hd : d.isZero = true) : D.Vanishes read t p ∧ d.Vanishes t p := by
  obtain ⟨s, rfl⟩ := Value.exists_of_isZero hd
  exact ⟨h.vanishes ht, h.shape, .zero s⟩

theorem Tracks.vanishes_of_isZeroLeaf (h : D.Tracks read t p d) (ht : t.IsPlace p)
    (hD : D.isZeroLeaf = true) : D.Vanishes read t p ∧ d.Vanishes t p :=
  ⟨Node.vanishes_of_isZeroLeaf h.bounded hD, h.null_of_isZeroLeaf ht hD⟩

theorem unary_tracks {f : UnaryFn} {a DU : Node α β} {du : Value α} (ht : t.IsPlace p)
    (ha : a.Bounded read t) (hdu : a.diff read wrt = .ok du) (hDU : a.derivative wrt = .ok DU)
    (htracks : DU.Tracks read t p du) (hd : (unary f a).diff read wrt = .ok d)
    (hD : (unary f a).derivative wrt = .ok D) : D.Tracks read t p d := by
  have htrees : Terms.Ideal (Bounded (α := α) read t) (Vanishes read t p) := ideal_vanishes ht
  have hvalues := Value.ideal_vanishes (α := α) ht
  rw [diff, hdu] at hd
  rw [derivative, hDU] at hD
  replace hd : (if du.isZero then .ok du else
      a.eval read >>= fun u => Terms.unaryRule f u du) = .ok d := hd
  replace hD : (if DU.isZeroLeaf then .ok DU else Terms.unaryRule f a DU) = .ok D := hD
  -- where only one derivative is seen to be zero, the rule gives the other one near zero
  split_ifs at hd hD with hzero hleaf hleaf
  · obtain rfl := Except.ok.inj hd
    obtain rfl := Except.ok.inj hD
    exact htracks
  · obtain rfl := Except.ok.inj hd
    obtain ⟨hDU0, hdu0⟩ := htracks.vanishes_of_isZero ht hzero
    exact (htrees.unaryRule f ha hDU0 D hD).tracks hdu0 ht
  · obtain rfl := Except.ok.inj hD
    obtain ⟨u, hu, hd⟩ := exists_of_bind_eq_ok hd
    obtain ⟨hDU0, hdu0⟩ := htracks.vanishes_of_isZeroLeaf ht hleaf
    exact hDU0.tracks (hvalues.unaryRule f (ha.shape_eval hu) hdu0 d hd) ht
  · obtain ⟨u, hu, hd⟩ := exists_of_bind_eq_ok hd
    exact Terms.unaryRule_tracks f ht (ha.wellFormed.computes hu) (ha.shape_eval hu) htracks
      D d hD hd

theorem binary_tracks {f : BinaryFn} {a b DL DR : Node α β} {dl dr : Value α} (ht : t.IsPlace p)
    (ha : a.Bounded read t) (hb : b.Bounded read t) (hdl : a.diff read wrt = .ok dl)
    (hdr : b.diff read wrt = .ok dr) (hDL : a.derivative wrt = .ok DL)
    (hDR : b.derivative wrt = .ok DR) (htracksl : DL.Tracks read t p dl)
    (htracksr : DR.Tracks read t p dr) (hsame : f = .pow → DR.isZeroLeaf = dr.isZero)
    (hd : (binary f a b).diff read wrt = .ok d) (hD : (binary f a b).derivative wrt = .ok D) :
    D.Tracks read t p d := by
  have htrees : Terms.Ideal (Bounded (α := α) read t) (Vanishes read t p) := ideal_vanishes ht
  have hvalues := Value.ideal_vanishes (α := α) ht
  rw [diff, hdl, hdr] at hd
  rw [derivative, hDL, hDR] at hD
  replace hd : (if dl.isZero && dr.isZero then BinaryFn.add.onValues dl dr else
      a.eval read >>= fun l => b.eval read >>= fun r => Terms.binaryRule f l r dl dr) = .ok d := hd
  replace hD : (if DL.isZeroLeaf && DR.isZeroLeaf then smartBinary .add DL DR
      else Terms.binaryRule f a b DL DR) = .ok D := hD
  -- as for one operand, but both derivatives have to be seen to be zero
  split_ifs at hd hD with hzero hleaf hleaf
  · exact htracksl.smartSum (f := .add) (by decide) ht htracksr D d hD hd
  · obtain ⟨hl, hr⟩ := Bool.and_eq_true_iff.mp hzero
    obtain ⟨hDL0, hdl0⟩ := htracksl.vanishes_of_isZero ht hl
    obtain ⟨hDR0, hdr0⟩ := htracksr.vanishes_of_isZero ht hr
    exact (htrees.binaryRule f ha hb hDL0 hDR0 D hD).tracks (hvalues.add dl dr hdl0 hdr0 d hd) ht
  · obtain ⟨hl, hr⟩ := Bool.and_eq_true_iff.mp hleaf
    obtain ⟨hDL0, hdl0⟩ := htracksl.vanishes_of_isZeroLeaf ht hl
    obtain ⟨hDR0, hdr0⟩ := htracksr.vanishes_of_isZeroLeaf ht hr
    obtain ⟨l, hlv, hd⟩ := exists_of_bind_eq_ok hd
    obtain ⟨r, hrv, hd⟩ := exists_of_bind_eq_ok hd
    have hd0 := hvalues.binaryRule f (ha.shape_eval hlv) (hb.shape_eval hrv) hdl0 hdr0 d hd
    exact (htrees.add DL DR hDL0 hDR0 D hD).tracks hd0 ht
  · obtain ⟨l, hlv, hd⟩ := exists_of_bind_eq_ok hd
    obtain ⟨r, hrv, hd⟩ := exists_of_bind_eq_ok hd
    exact Terms.binaryRule_tracks f ht (ha.wellFormed.computes hlv) (hb.wellFormed.computes hrv)
      (ha.shape_eval hlv) (hb.shape_eval hrv) htracksl htracksr
      (fun hknown => vanishes_of_known ht ha hlv hknown hDL)
      (fun hknown => vanishes_of_known ht hb hrv hknown hDR) hsame D d hD hd

/-- The derived tree tracks the derivative's value at every place. -/
theorem derivative_tracks (ht : t.IsPlace p) (hT : T.Bounded read t)
    (hpow : T.SamePowerRule read wrt) (hd : T.diff read wrt = .ok d)
    (hD : T.derivative wrt = .ok D) : D.Tracks read t p d := by
  have hscalar := Shape.scalar_stretchesTo ht.ne_nil
  induction T generalizing d D with
  | constant c =>
    obtain rfl := Except.ok.inj hd
    obtain rfl := Except.ok.inj hD
    exact tracks_constant trivial hT.2 hT.2 rfl
  | tensor a =>
    obtain rfl := Except.ok.inj hd
    obtain rfl := Except.ok.inj hD
    exact tracks_constant trivial hT hT rfl
  | variableLeaf name b =>
    obtain rfl := Except.ok.inj hd
    obtain rfl := Except.ok.inj hD
    split_ifs <;> exact tracks_constant trivial hscalar hT rfl
  | unary f a ih =>
    have ha : a.Bounded read t := hT
    obtain ⟨du, hdu, -⟩ := exists_of_bind_eq_ok hd
    obtain ⟨DU, hDU, -⟩ := exists_of_bind_eq_ok hD
    have htracks := ih ha (fun l r h => hpow l r (List.mem_cons_of_mem _ h)) hdu hDU
    exact unary_tracks ht ha hdu hDU htracks hd hD
  | binary f a b iha ihb =>
    obtain ⟨ha, hb⟩ := hT
    obtain ⟨dl, hdl, hrest⟩ := exists_of_bind_eq_ok hd
    obtain ⟨dr, hdr, -⟩ := exists_of_bind_eq_ok hrest
    obtain ⟨DL, hDL, hrest⟩ := exists_of_bind_eq_ok hD
    obtain ⟨DR, hDR, -⟩ := exists_of_bind_eq_ok hrest
    have hleft := iha ha
      (fun l r h => hpow l r (List.mem_cons_of_mem _ (List.mem_append_left _ h))) hdl hDL
    have hright := ihb hb
      (fun l r h => hpow l r (List.mem_cons_of_mem _ (List.mem_append_right _ h))) hdr hDR
    have hsame (h : f = .pow) : DR.isZeroLeaf = dr.isZero := by
      obtain rfl := h
      exact isZeroLeaf_eq_isZero (hpow a b (self_mem_subtrees _)) hdr hDR
    exact binary_tracks ht ha hb hdl hdr hDL hDR hleft hright hsame hd hD

end Node

end FormulaCalculus
