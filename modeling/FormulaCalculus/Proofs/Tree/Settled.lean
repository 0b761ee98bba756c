import FormulaCalculus.Proofs.Algebra.Ordinary
import FormulaCalculus.Proofs.Derivative.Closure
import FormulaCalculus.Proofs.Scalar.Sign
import FormulaCalculus.Proofs.Tree.Printing
import FormulaCalculus.Proofs.Tree.Simplification

/-!
The form of derived trees. A settled tree has ordinary constants that keep their imaginary parts
when they are written, as those of a formula without imaginary literals do. Its derivatives bring
in folded constants, but only as terms, factors, dividends and exponents: every divisor, every base
of a power and every argument of a function other than the minus is settled, however often the tree
is differentiated.
-/

namespace FormulaCalculus

variable {α β : Type} [Scalar α]

namespace Constant

/-- Whether the imaginary part of a constant is that of its written form. -/
def Upright (c : Constant α) : Prop := c.withWrittenZero = c

theorem upright_ofReal {x : α} (h : Scalar.lt x Scalar.zero = false) : (ofReal x).Upright := by
  simp [Upright, ofReal, Number.ofReal, withWrittenZero, ComplexNumber.ofReal, h]

theorem upright_calculated {x : α} {s : Shape} (h : Scalar.lt x Scalar.zero = false) :
    (calculated x s).Upright := by
  unfold calculated ofNumber Upright
  split_ifs <;> simp [withWrittenZero, ComplexNumber.ofReal, h]

/-- The square of an ordinary constant is written as it is. -/
theorem Ordinary.upright_square [LawfulScalar α] [LawfulSigns α] {c : Constant α}
    (hc : c.Ordinary) : (UnaryFn.square.onConstant c).Upright := by
  cases c with
  | number n =>
    rw [UnaryFn.onConstant_of_inDomain (by decide) (by decide) hc.onRealLine rfl]
    exact upright_calculated (LawfulSigns.mul_self _)
  | _ => rfl

end Constant

namespace Node

/-- Whether the constants of a tree are ordinary and written as they are, and no leaf is a tensor.
-/
def Settled : Node α β → Prop
  | constant c => c.Ordinary ∧ c.Upright
  | tensor _ => False
  | variableLeaf _ _ => True
  | unary _ a => a.Settled
  | binary _ a b => a.Settled ∧ b.Settled

/-- The trees that differentiation makes of settled trees. -/
inductive Derived : Node α β → Prop
  | settled {a : Node α β} (ha : a.Settled) : Derived a
  | folded {c : Constant α} (hc : c.Ordinary) : Derived (constant c)
  | opposite {a : Node α β} (ha : Derived a) : Derived (unary .neg a)
  | ring {f : BinaryFn} {a b : Node α β} (hf : f = .add ∨ f = .sub ∨ f = .mul) (ha : Derived a)
      (hb : Derived b) : Derived (binary f a b)
  | quotient {a b : Node α β} (ha : Derived a) (hb : b.Settled) : Derived (binary .div a b)
  | power {a : Node α β} {c : Constant α} (ha : a.Settled) (hc : c.Ordinary) :
      Derived (binary .pow a (constant c))

def IsConstantLeaf (a : Node α β) : Prop := ∃ c, a = constant c

variable {a b l r u dl dr du n : Node α β} {c : Constant α} {f : BinaryFn} {wrt : String}

/-- A settled tree is written as it is. -/
theorem Settled.withWrittenZeros (h : a.Settled) : a.withWrittenZeros = a := by
  induction a with
  | constant c => exact congrArg Node.constant h.2
  | tensor a => exact h.elim
  | variableLeaf name b => rfl
  | unary f a ih => rw [Node.withWrittenZeros, ih h]
  | binary f a b iha ihb => rw [Node.withWrittenZeros, iha h.1, ihb h.2]

theorem Derived.ordinary (h : (constant c : Node α β).Derived) : c.Ordinary := by
  cases h with
  | settled h => exact h.1
  | folded h => exact h

/-! ### Simplified trees -/

theorem smartUnary_of_ne {f : UnaryFn} (hf : f ≠ .neg) (ha : ¬ a.IsConstantLeaf) :
    smartUnary f a = unary f a := by
  fun_cases smartUnary f a with
  | case1 => exact absurd ⟨_, rfl⟩ ha
  | case2 => exact absurd rfl hf
  | case3 => rfl

omit [Scalar α] in
theorem not_isConstantLeaf_unary (f : UnaryFn) (a : Node α β) : ¬ (unary f a).IsConstantLeaf := by
  rintro ⟨c, hc⟩
  nomatch hc

theorem Settled.smartUnary (f : UnaryFn) (ha : a.Settled) (hleaf : ¬ a.IsConstantLeaf) :
    (smartUnary f a).Settled := by
  fun_cases Node.smartUnary f a with
  | case1 => exact absurd ⟨_, rfl⟩ hleaf
  | case2 => exact ha
  | case3 => exact ha

theorem Settled.smartBinary (ha : a.Settled) (hb : b.Settled)
    (hleaf : ¬ (a.IsConstantLeaf ∧ b.IsConstantLeaf)) (h : smartBinary f a b = .ok n) :
    n.Settled := by
  rcases smartBinary_cases f a b with ⟨c, d, rfl, rfl, -⟩ | ⟨m, hm, hsmart⟩ | hplain
  · exact absurd ⟨⟨c, rfl⟩, ⟨d, rfl⟩⟩ hleaf
  · obtain rfl := Except.ok.inj (hsmart.symm.trans h)
    cases hm with
    | keepLeft _ _ | powUnity _ _ => exact ha
    | keepRight _ _ => exact hb
    | negLeft _ _ => exact ha.smartUnary .neg fun hleft => hleaf ⟨hleft, ⟨_, rfl⟩⟩
    | negRight _ _ => exact hb.smartUnary .neg fun hright => hleaf ⟨⟨_, rfl⟩, hright⟩
    | zeroMul s _ => exact ha
    | mulZero s _ => exact hb
    | powZero s _ => exact ⟨⟨hb.1.shape, rfl, trivial⟩, rfl⟩
  · obtain rfl := Except.ok.inj (hplain.symm.trans h)
    exact ⟨ha, hb⟩

theorem Settled.one : (Terms.one : Node α β).Settled := ⟨⟨rfl, rfl, trivial⟩, rfl⟩

/-- An exponent that powers are derived to have: a constant, or a settled tree. -/
def Exponent (r : Node α β) : Prop := (∃ c, r = constant c ∧ c.Ordinary) ∨ r.Settled

theorem Exponent.derived (hr : r.Exponent) : r.Derived := by
  rcases hr with ⟨c, rfl, hc⟩ | hr
  · exact .folded hc
  · exact .settled hr

/-- The power of a settled base that is no constant. -/
theorem Settled.smartPow (hl : l.Settled) (hleaf : ¬ l.IsConstantLeaf) (hr : r.Exponent) :
    Terms.Gives Derived (Terms.binary .pow l r) := by
  intro n h
  rcases hr with ⟨c, rfl, hc⟩ | hr
  · rcases smartBinary_cases .pow l (constant c) with ⟨b, d, rfl, -, -⟩ | ⟨m, hm, hsmart⟩ | hplain
    · exact absurd ⟨b, rfl⟩ hleaf
    · obtain rfl := Except.ok.inj (hsmart.symm.trans h)
      cases hm with
      | keepLeft _ hd | keepRight _ hd | negLeft _ hd | negRight _ hd => nomatch hd
      | powUnity _ _ => exact .settled hl
      | powZero s _ => exact .folded ⟨hc.shape, rfl, trivial⟩
    · obtain rfl := Except.ok.inj (hplain.symm.trans h)
      exact .power hl hc
  · exact .settled (hl.smartBinary hr (fun hboth => hleaf hboth.1) h)

/-- One and the square of a settled tree that is no constant are not folded. -/
theorem Settled.besideOne {x y : Node α β} (hf : f = .add ∨ f = .sub) (hu : u.Settled)
    (hleaf : ¬ u.IsConstantLeaf) (hxy : x = Terms.one ∧ y = Node.smartUnary .square u ∨
      x = Node.smartUnary .square u ∧ y = Terms.one) :
    Terms.Gives (fun s : Node α β => s.Settled ∧ ¬ s.IsConstantLeaf) (Terms.binary f x y) := by
  intro n h
  rw [smartUnary_of_ne (by decide) hleaf] at hxy
  -- no operand is zero, and they are not both constants, so nothing is simplified
  have hone : (Terms.one : Node α β).Settled := Settled.one
  rcases hf with rfl | rfl <;> rcases hxy with ⟨rfl, rfl⟩ | ⟨rfl, rfl⟩ <;>
    obtain rfl := Except.ok.inj h
  · exact ⟨⟨hone, hu⟩, fun ⟨_, hc⟩ => nomatch hc⟩
  · exact ⟨⟨hu, hone⟩, fun ⟨_, hc⟩ => nomatch hc⟩
  · exact ⟨⟨hone, hu⟩, fun ⟨_, hc⟩ => nomatch hc⟩
  · exact ⟨⟨hu, hone⟩, fun ⟨_, hc⟩ => nomatch hc⟩

section

variable [LawfulScalar α]

theorem Derived.real {x : α} (hx : Scalar.Plain x) : (Terms.real x : Node α β).Derived :=
  .folded (Constant.ordinary_ofReal hx)

theorem Settled.smartSquare [LawfulSigns α] (ha : a.Settled) :
    (Node.smartUnary .square a).Settled := by
  by_cases hleaf : a.IsConstantLeaf
  · obtain ⟨c, rfl⟩ := hleaf
    exact ⟨ha.1.onConstant (by decide), ha.1.upright_square⟩
  · exact ha.smartUnary .square hleaf

theorem Settled.smartLog (ha : a.Settled) : (Node.smartUnary .log a).Derived := by
  by_cases hleaf : a.IsConstantLeaf
  · obtain ⟨c, rfl⟩ := hleaf
    exact .folded (ha.1.onConstant (by decide))
  · exact .settled (ha.smartUnary .log hleaf)

theorem Derived.smartNeg (ha : a.Derived) : (smartUnary .neg a).Derived := by
  generalize hf : UnaryFn.neg = f
  fun_cases Node.smartUnary f a with
  | case1 =>
    subst hf
    exact .folded (ha.ordinary.onConstant (by decide))
  | case2 a =>
    cases ha with
    | settled ha => exact .settled ha
    | opposite ha => exact ha
  | case3 =>
    subst hf
    exact .opposite ha

/-- Constants are folded to an ordinary one. -/
theorem Derived.fold {d : Constant α} (hf : f.IsArithmetic) (hc : (constant c : Node α β).Derived)
    (hd : (constant d : Node α β).Derived)
    (h : (f.onConstants c d >>= fun e => .ok (constant e)) = .ok n) : n.Derived := by
  obtain ⟨e, he, h⟩ := exists_of_bind_eq_ok h
  obtain rfl := Except.ok.inj h
  exact .folded (hc.ordinary.onConstants hf hd.ordinary he)

theorem Derived.smartRing (hf : f = .add ∨ f = .sub ∨ f = .mul) (ha : a.Derived) (hb : b.Derived) :
    Terms.Gives Derived (Terms.binary f a b) := by
  intro n h
  have harithmetic : f.IsArithmetic := by rcases hf with rfl | rfl | rfl <;> decide
  rcases smartBinary_cases f a b with ⟨c, d, rfl, rfl, hfold⟩ | ⟨m, hm, hsmart⟩ | hplain
  · exact ha.fold harithmetic hb (hfold.symm.trans h)
  · obtain rfl := Except.ok.inj (hsmart.symm.trans h)
    cases hm with
    | keepLeft _ _ => exact ha
    | keepRight _ _ => exact hb
    | negLeft _ _ => exact ha.smartNeg
    | negRight _ _ => exact hb.smartNeg
    | zeroMul s _ => exact ha
    | mulZero s _ => exact hb
    | powUnity _ _ | powZero _ _ => simp at hf
  · obtain rfl := Except.ok.inj (hplain.symm.trans h)
    exact .ring hf ha hb

theorem Derived.smartAdd (ha : a.Derived) (hb : b.Derived) :
    Terms.Gives Derived (Terms.binary .add a b) := ha.smartRing (by decide) hb

theorem Derived.smartMul (ha : a.Derived) (hb : b.Derived) :
    Terms.Gives Derived (Terms.binary .mul a b) := ha.smartRing (by decide) hb

theorem Derived.smartDiv (ha : a.Derived) (hb : b.Settled) :
    Terms.Gives Derived (Terms.binary .div a b) := by
  intro n h
  rcases smartBinary_cases .div a b with ⟨c, d, rfl, rfl, hfold⟩ | ⟨m, hm, hsmart⟩ | hplain
  · exact ha.fold (by decide) (.settled hb) (hfold.symm.trans h)
  · obtain rfl := Except.ok.inj (hsmart.symm.trans h)
    cases hm with
    | keepLeft _ _ => exact ha
    | keepRight _ hc => nomatch hc
    | negLeft _ _ => exact ha.smartNeg
    | negRight _ hc => nomatch hc
  · obtain rfl := Except.ok.inj (hplain.symm.trans h)
    exact .quotient ha hb

theorem Exponent.reduced (hr : r.Exponent) :
    Terms.Gives Exponent (Terms.binary .sub r (Terms.one : Node α β)) := by
  intro n h
  by_cases hleaf : r.IsConstantLeaf
  · obtain ⟨c, rfl⟩ := hleaf
    obtain ⟨e, he, h⟩ := exists_of_bind_eq_ok h
    obtain rfl := Except.ok.inj h
    have hone : (Constant.unity Shape.scalar : Constant α).Ordinary := ⟨rfl, rfl, trivial⟩
    exact Or.inl ⟨e, rfl, hr.derived.ordinary.onConstants (by decide) hone he⟩
  · rcases hr with ⟨c, rfl, -⟩ | hr
    · exact absurd ⟨c, rfl⟩ hleaf
    · exact Or.inr (hr.smartBinary Settled.one (fun hboth => hleaf hboth.1) h)

/-! ### Chain rules -/

variable [LawfulSigns α]

theorem Settled.unaryRule (f : UnaryFn) (hu : u.Settled) (hleaf : ¬ u.IsConstantLeaf)
    (hdu : du.Derived) : Terms.Gives Derived (Terms.unaryRule f u du) := by
  have hunary (g : UnaryFn) : (Node.smartUnary g u).Settled := hu.smartUnary g hleaf
  have hproduct {m : Node α β} (hm : m.Derived) : Terms.Gives Derived (Terms.binary .mul m du) :=
    hm.smartMul hdu
  have hquotient {m : Node α β} (hm : m.Settled) : Terms.Gives Derived (Terms.binary .div du m) :=
    hdu.smartDiv hm
  have hln10 : (Terms.real Scalar.ln10 : Node α β).Settled :=
    ⟨Constant.ordinary_ofReal LawfulScalar.ln10_plain, Constant.upright_ofReal LawfulSigns.ln10⟩
  cases f with
  | neg => exact .ok hdu.smartNeg
  | abs => exact (Derived.smartDiv (.settled hu) (hunary .abs)).bind fun v hv => hproduct hv
  | sqrt =>
    exact (hproduct (.real LawfulScalar.half_plain)).bind fun v hv => hv.smartDiv (hunary .sqrt)
  | square =>
    exact (Derived.smartMul (.real LawfulScalar.two_plain) (.settled hu)).bind fun v hv =>
      hproduct hv
  | exp => exact hproduct (.settled (hunary .exp))
  | log => exact hquotient hu
  | log10 =>
    intro n h
    obtain ⟨m, hm, h⟩ := exists_of_bind_eq_ok h
    exact hquotient (hu.smartBinary hln10 (fun hboth => hleaf hboth.1) hm) n h
  | sin => exact hproduct (.settled (hunary .cos))
  | cos => exact hproduct (Derived.smartNeg (.settled (hunary .sin)))
  | tan => exact hquotient (hunary .cos).smartSquare
  -- the radicand is no constant, so its root is not folded either
  | asin =>
    exact (hu.besideOne (by decide) hleaf (Or.inl ⟨rfl, rfl⟩)).bind fun s hs =>
      hquotient (hs.1.smartUnary .sqrt hs.2)
  | acos =>
    exact (hu.besideOne (by decide) hleaf (Or.inl ⟨rfl, rfl⟩)).bind fun s hs =>
      hdu.smartNeg.smartDiv (hs.1.smartUnary .sqrt hs.2)
  | atan =>
    exact (hu.besideOne (by decide) hleaf (Or.inl ⟨rfl, rfl⟩)).bind fun s hs => hquotient hs.1
  | sinh => exact hproduct (.settled (hunary .cosh))
  | cosh => exact hproduct (.settled (hunary .sinh))
  | tanh => exact hquotient (hunary .cosh).smartSquare
  | asinh =>
    exact (hu.besideOne (by decide) hleaf (Or.inr ⟨rfl, rfl⟩)).bind fun s hs =>
      hquotient (hs.1.smartUnary .sqrt hs.2)
  | acosh =>
    exact (hu.besideOne (by decide) hleaf (Or.inr ⟨rfl, rfl⟩)).bind fun s hs =>
      hquotient (hs.1.smartUnary .sqrt hs.2)
  | atanh =>
    exact (hu.besideOne (by decide) hleaf (Or.inl ⟨rfl, rfl⟩)).bind fun s hs => hquotient hs.1

omit [LawfulSigns α] in
theorem Derived.ringRule (hf : f = .add ∨ f = .sub ∨ f = .mul) (hl : l.Derived) (hr : r.Derived)
    (hdl : dl.Derived) (hdr : dr.Derived) : Terms.Gives Derived (Terms.binaryRule f l r dl dr) := by
  rcases hf with rfl | rfl | rfl
  · exact hdl.smartAdd hdr
  · exact hdl.smartRing (by decide) hdr
  · exact (hdl.smartMul hr).bind fun x hx => (hl.smartMul hdr).bind fun y hy => hx.smartAdd hy

theorem Derived.quotientRule (hl : l.Derived) (hr : r.Settled) (hdl : dl.Derived)
    (hdr : dr.Derived) : Terms.Gives Derived (Terms.binaryRule .div l r dl dr) := by
  refine (hdl.smartMul (.settled hr)).bind fun x hx => ?_
  refine (hl.smartNeg.smartMul hdr).bind fun y hy => ?_
  exact (hx.smartAdd hy).bind fun z hz => hz.smartDiv hr.smartSquare

omit [LawfulSigns α] in
theorem Settled.powRule (hl : l.Settled) (hleaf : ¬ l.IsConstantLeaf) (hr : r.Exponent)
    (hdl : dl.Derived) : Terms.Gives Derived (Terms.powRule l r dl) := by
  refine hr.reduced.bind fun reduced hreduced => ?_
  refine (hl.smartPow hleaf hreduced).bind fun power hpower => ?_
  exact (hr.derived.smartMul hpower).bind fun outer houter => houter.smartMul hdl

omit [LawfulSigns α] in
theorem Settled.expPowRule (hl : l.Settled) (hr : r.Settled) (hleaf : ¬ r.IsConstantLeaf)
    (hdl : dl.Derived) (hdr : dr.Derived) : Terms.Gives Derived (Terms.expPowRule l r dl dr) := by
  have hpower : Terms.Gives Derived (Terms.binary .pow l r) := fun n h =>
    .settled (hl.smartBinary hr (fun hboth => hleaf hboth.2) h)
  refine (hdr.smartMul hl.smartLog).bind fun logTerm hlog => ?_
  refine (Derived.smartMul (.settled hr) hdl).bind fun factor hfactor => ?_
  refine (hfactor.smartDiv hl).bind fun baseTerm hbase => ?_
  exact hpower.bind fun power hpower => (hlog.smartAdd hbase).bind fun sum hsum =>
    hpower.smartMul hsum

theorem Settled.angleRule (hl : l.Settled) (hr : r.Settled)
    (hleaf : ¬ (l.IsConstantLeaf ∧ r.IsConstantLeaf)) (hdl : dl.Derived) (hdr : dr.Derived) :
    Terms.Gives Derived (Terms.binaryRule .atan2 l r dl dr) := by
  have hlDerived : l.Derived := .settled hl
  have hsquares : Terms.Gives Settled
      (Terms.binary .add (Node.smartUnary .square r) (Node.smartUnary .square l)) := by
    refine fun n h => hr.smartSquare.smartBinary hl.smartSquare (fun hboth => hleaf ?_) h
    -- only the square of a constant is folded
    have hfolded {a : Node α β} (h : (Node.smartUnary .square a).IsConstantLeaf) :
        a.IsConstantLeaf := by
      by_contra ha
      rw [smartUnary_of_ne (by decide) ha] at h
      exact not_isConstantLeaf_unary _ _ h
    exact ⟨hfolded hboth.2, hfolded hboth.1⟩
  refine (Derived.smartMul (.settled hr) hdl).bind fun x hx => ?_
  refine (hlDerived.smartNeg.smartMul hdr).bind fun y hy => ?_
  exact (hx.smartAdd hy).bind fun z hz => hsquares.bind fun w hw => hz.smartDiv hw

/-! ### Derivatives -/

omit [LawfulScalar α] [LawfulSigns α] in
/-- The derivative of a constant is the symbol for zero. -/
theorem IsConstantLeaf.isZeroLeaf (ha : a.IsConstantLeaf) (h : a.derivative wrt = .ok n) :
    n.isZeroLeaf = true := by
  obtain ⟨c, rfl⟩ := ha
  obtain rfl := Except.ok.inj h
  rfl

theorem Settled.derivative (ha : a.Settled) (h : a.derivative wrt = .ok n) : n.Derived := by
  induction a generalizing n with
  | constant c =>
    obtain rfl := Except.ok.inj h
    exact .folded ⟨ha.1.shape, rfl, trivial⟩
  | tensor a => exact ha.elim
  | variableLeaf name b =>
    obtain rfl := Except.ok.inj h
    split_ifs
    · exact .folded ⟨rfl, rfl, trivial⟩
    · exact .folded ⟨rfl, rfl, trivial⟩
  | unary f a ih =>
    obtain ⟨du, hdu, h⟩ := exists_of_bind_eq_ok h
    split_ifs at h with hzero
    · obtain rfl := Except.ok.inj h
      exact ih ha hdu
    · have hu : a.Settled := ha
      exact hu.unaryRule f (fun hleaf => hzero (hleaf.isZeroLeaf hdu)) (ih ha hdu) n h
  | binary f l r ihl ihr =>
    obtain ⟨hl, hr⟩ := ha
    obtain ⟨dl, hdl, h⟩ := exists_of_bind_eq_ok h
    obtain ⟨dr, hdr, h⟩ := exists_of_bind_eq_ok h
    have hdl' := ihl hl hdl
    have hdr' := ihr hr hdr
    split_ifs at h with hzero
    · exact hdl'.smartAdd hdr' n h
    rw [Bool.and_eq_true] at hzero
    -- the rule is applied only where some operand is no constant
    have hleaf : ¬ (l.IsConstantLeaf ∧ r.IsConstantLeaf) := fun hboth =>
      hzero ⟨hboth.1.isZeroLeaf hdl, hboth.2.isZeroLeaf hdr⟩
    cases f with
    | add | sub | mul =>
      exact Derived.ringRule (by decide) (.settled hl) (.settled hr) hdl' hdr' n h
    | div => exact Derived.quotientRule (.settled hl) hr hdl' hdr' n h
    | atan2 => exact hl.angleRule hr hleaf hdl' hdr' n h
    | pow =>
      cases hdrzero : dr.isZeroLeaf with
      | true =>
        have hrule : Terms.binaryRule .pow l r dl dr = Terms.powRule l r dl := if_pos hdrzero
        rw [hrule] at h
        -- the exponent does not change, so the base does
        have hleft : ¬ l.IsConstantLeaf := fun hl => hzero ⟨hl.isZeroLeaf hdl, hdrzero⟩
        exact hl.powRule hleft (Or.inr hr) hdl' n h
      | false =>
        have hrule : Terms.binaryRule .pow l r dl dr = Terms.expPowRule l r dl dr :=
          if_neg (ne_true_of_eq_false hdrzero)
        rw [hrule] at h
        have hright : ¬ r.IsConstantLeaf := fun hr => by
          rw [hr.isZeroLeaf hdr] at hdrzero
          nomatch hdrzero
        exact hl.expPowRule hr hright hdl' hdr' n h

/-- Differentiation keeps the form of derived trees. -/
theorem Derived.derivative (ha : a.Derived) (h : a.derivative wrt = .ok n) : n.Derived := by
  induction ha generalizing n with
  | settled ha => exact ha.derivative h
  | folded hc =>
    obtain rfl := Except.ok.inj h
    exact .folded ⟨hc.shape, rfl, trivial⟩
  | opposite _ ih =>
    obtain ⟨du, hdu, h⟩ := exists_of_bind_eq_ok h
    split_ifs at h
    · obtain rfl := Except.ok.inj h
      exact ih hdu
    · obtain rfl := Except.ok.inj h
      exact (ih hdu).smartNeg
  | ring hf hl hr ihl ihr =>
    obtain ⟨dl, hdl, h⟩ := exists_of_bind_eq_ok h
    obtain ⟨dr, hdr, h⟩ := exists_of_bind_eq_ok h
    split_ifs at h
    · exact (ihl hdl).smartAdd (ihr hdr) n h
    · exact hl.ringRule hf hr (ihl hdl) (ihr hdr) n h
  | quotient hl hr ihl =>
    obtain ⟨dl, hdl, h⟩ := exists_of_bind_eq_ok h
    obtain ⟨dr, hdr, h⟩ := exists_of_bind_eq_ok h
    split_ifs at h
    · exact (ihl hdl).smartAdd (hr.derivative hdr) n h
    · exact hl.quotientRule hr (ihl hdl) (hr.derivative hdr) n h
  | @power l c hl hc =>
    obtain ⟨dl, hdl, h⟩ := exists_of_bind_eq_ok h
    obtain ⟨dr, hdr, h⟩ := exists_of_bind_eq_ok h
    obtain rfl := Except.ok.inj hdr
    have hdr : (constant (.zero c.shape) : Node α β).Derived := .folded ⟨hc.shape, rfl, trivial⟩
    split_ifs at h with hzero
    · exact (hl.derivative hdl).smartAdd hdr n h
    · -- the exponent is constant, so the base is not
      have hleaf := fun hbase : l.IsConstantLeaf => hzero <| by
        rw [hbase.isZeroLeaf hdl]
        rfl
      exact hl.powRule hleaf (Or.inl ⟨_, rfl, hc⟩) (hl.derivative hdl) n h

end

end Node

end FormulaCalculus
