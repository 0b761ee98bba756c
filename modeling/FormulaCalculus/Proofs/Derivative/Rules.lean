import FormulaCalculus.Proofs.Derivative.Refinement

/-!
The chain rules on trees and on values. Where the operands are trees with their values and the
derivatives are trees that refine theirs, the tree that a rule makes refines the value that the rule
gives, unless this is the symbol for zero.
-/

namespace FormulaCalculus

namespace Terms

open Node (Computes Refines RefinesNonzero Follows)

variable {α β : Type} [Scalar α] [LawfulScalar α] {read : β → Tensor α}

omit [LawfulScalar α] in
theorem one_computes : (one : Node α β).Computes read (one : Value α) :=
  ⟨⟨trivial, .refl _⟩, rfl⟩

theorem real_computes {x : α} (hx : Scalar.Plain x) :
    (real x : Node α β).Computes read (real x : Value α) :=
  ⟨⟨fun _ => ⟨ComplexNumber.isReal_ofReal x, hx⟩, .refl _⟩, rfl⟩

variable {U L R D DL DR : Node α β} {u l r d dl dr : Value α}

/-- The chain rule of a function of one operand. -/
theorem unaryRule_follows (f : UnaryFn) (hu : U.Computes read u) (hd : D.Refines read d) :
    Follows (RefinesNonzero read) (unaryRule f U D) (unaryRule f u d) := by
  have htwo : (real Scalar.two : Node α β).Computes read (real Scalar.two : Value α) :=
    real_computes LawfulScalar.two_plain
  have hhalf : (real Scalar.half : Node α β).Computes read (real Scalar.half : Value α) :=
    real_computes LawfulScalar.half_plain
  have hln10 : (real Scalar.ln10 : Node α β).Computes read (real Scalar.ln10 : Value α) :=
    real_computes LawfulScalar.ln10_plain
  have hone : (one : Node α β).Computes read (one : Value α) := one_computes
  have hsquare := hu.smartUnary .square
  -- Every rule ends in a product or a quotient with the inner derivative.
  have hproduct {M : Node α β} {m : Value α} (hm : M.Refines read m) :
      Follows (RefinesNonzero read) (binary .mul M D) (binary .mul m d) :=
    hm.smartBinary_nonzero (by decide) hd fun h => nomatch h
  have hquotient {M N : Node α β} {m n : Value α} (hm : M.Refines read m) (hn : N.Refines read n) :
      Follows (RefinesNonzero read) (binary .div M N) (binary .div m n) :=
    hm.smartBinary_nonzero (by decide) hn fun h => nomatch h
  cases f with
  | neg => exact .ok (hd.smartUnary .neg).refinesNonzero
  | abs => exact (hu.refines.smartDiv (hu.smartUnary .abs)).bind fun M m hm => hproduct hm
  | sqrt =>
    exact (hhalf.refines.smartBinary (f := .mul) (by decide) hd).bind fun M m hm =>
      hquotient hm (hu.smartUnary .sqrt).refines
  | square =>
    exact (htwo.refines.smartBinary (f := .mul) (by decide) hu.refines).bind fun M m hm =>
      hproduct hm
  | exp => exact hproduct (hu.smartUnary .exp).refines
  | log => exact hquotient hd hu.refines
  | log10 =>
    exact (hu.refines.smartBinary (f := .mul) (by decide) hln10.refines).bind fun M m hm =>
      hquotient hd hm
  | sin => exact hproduct (hu.smartUnary .cos).refines
  | cos => exact hproduct ((hu.smartUnary .sin).smartUnary .neg).refines
  | tan => exact hquotient hd ((hu.smartUnary .cos).smartUnary .square).refines
  | asin =>
    exact (hone.refines.smartBinary (f := .sub) (by decide) hsquare.refines).bind fun M m hm =>
      hquotient hd (hm.smartUnary .sqrt)
  | acos =>
    exact (hone.refines.smartBinary (f := .sub) (by decide) hsquare.refines).bind fun M m hm =>
      hquotient (hd.smartUnary .neg) (hm.smartUnary .sqrt)
  | atan =>
    exact (hone.refines.smartBinary (f := .add) (by decide) hsquare.refines).bind fun M m hm =>
      hquotient hd hm
  | sinh => exact hproduct (hu.smartUnary .cosh).refines
  | cosh => exact hproduct (hu.smartUnary .sinh).refines
  | tanh => exact hquotient hd ((hu.smartUnary .cosh).smartUnary .square).refines
  | asinh =>
    exact (hsquare.refines.smartBinary (f := .add) (by decide) hone.refines).bind fun M m hm =>
      hquotient hd (hm.smartUnary .sqrt)
  | acosh =>
    exact (hsquare.refines.smartBinary (f := .sub) (by decide) hone.refines).bind fun M m hm =>
      hquotient hd (hm.smartUnary .sqrt)
  | atanh =>
    exact (hone.refines.smartBinary (f := .sub) (by decide) hsquare.refines).bind fun M m hm =>
      hquotient hd hm

theorem powRule_follows (hl : L.Computes read l) (hr : R.Computes read r)
    (hdl : DL.Refines read dl) (hnan : ¬ l.IsNan) :
    Follows (RefinesNonzero read) (powRule L R DL) (powRule l r dl) := by
  have hone : (one : Node α β).Computes read (one : Value α) := one_computes
  refine (hr.refines.smartBinary (f := .sub) (by decide) hone.refines).bind fun X x hx => ?_
  refine (hl.refines.smartBinary_nonzero (f := .pow) (by decide) hx fun _ => hnan).bind
    fun P p hp => ?_
  refine (hr.refines.smartMul hp).bind fun Q q hq => ?_
  exact hq.smartMul hdl

theorem expPowRule_follows (hl : L.Computes read l) (hr : R.Computes read r)
    (hdl : DL.Refines read dl) (hdr : DR.Refines read dr) (hnan : ¬ l.IsNan) :
    Follows (RefinesNonzero read) (expPowRule L R DL DR) (expPowRule l r dl dr) := by
  have hlog := (hl.smartUnary .log).refines
  refine (hdr.smartBinary (f := .mul) (by decide) hlog).bind fun X x hx => ?_
  refine (hr.refines.smartBinary (f := .mul) (by decide) hdl).bind fun Y y hy => ?_
  refine (hy.smartDiv hl).bind fun Z z hz => ?_
  refine (hl.refines.smartBinary_nonzero (f := .pow) (by decide) hr.refines fun _ => hnan).bind
    fun P p hp => ?_
  refine (hx.smartBinary (f := .add) (by decide) hz).bind fun S s hs => ?_
  exact hp.smartMul hs

/-- The chain rule of a function of two operands. -/
theorem binaryRule_follows (f : BinaryFn) (hl : L.Computes read l) (hr : R.Computes read r)
    (hdl : DL.Refines read dl) (hdr : DR.Refines read dr) (hnan : ¬ l.IsNan)
    (hzero : DR.isZeroLeaf = dr.isZero) :
    Follows (RefinesNonzero read) (binaryRule f L R DL DR) (binaryRule f l r dl dr) := by
  have hneg := (hl.smartUnary .neg).refines
  have hsum {f : BinaryFn} {M N : Node α β} {m n : Value α} (hf : f = .add ∨ f = .sub ∨ f = .mul)
      (hm : M.Refines read m) (hn : N.Refines read n) :
      Follows (RefinesNonzero read) (binary f M N) (binary f m n) :=
    (hm.smartBinary hf hn).mono fun _ _ h => h.refinesNonzero
  cases f with
  | add => exact hsum (by decide) hdl hdr
  | sub => exact hsum (by decide) hdl hdr
  | mul =>
    refine (hdl.smartBinary (f := .mul) (by decide) hr.refines).bind fun X x hx => ?_
    refine (hl.refines.smartBinary (f := .mul) (by decide) hdr).bind fun Y y hy => ?_
    exact hsum (by decide) hx hy
  | div =>
    refine (hdl.smartBinary (f := .mul) (by decide) hr.refines).bind fun X x hx => ?_
    refine (hneg.smartBinary (f := .mul) (by decide) hdr).bind fun Y y hy => ?_
    refine (hx.smartBinary (f := .add) (by decide) hy).bind fun Z z hz => ?_
    exact hz.smartBinary_nonzero (by decide) (hr.smartUnary .square).refines fun h => nomatch h
  | pow =>
    have hbranch {τ : Type} [Terms α τ] (l r dl dr : τ) : binaryRule .pow l r dl dr =
        if isZero dr then powRule l r dl else expPowRule l r dl dr := rfl
    rw [hbranch, hbranch]
    have hsame : isZero DR = isZero dr := hzero
    rw [hsame]
    split_ifs
    · exact powRule_follows hl hr hdl hnan
    · exact expPowRule_follows hl hr hdl hdr hnan
  | atan2 =>
    have hsquares := (hr.smartUnary .square).refines.smartBinary (f := .add) (by decide)
      (hl.smartUnary .square).refines
    refine (hr.refines.smartBinary (f := .mul) (by decide) hdl).bind fun X x hx => ?_
    refine (hneg.smartBinary (f := .mul) (by decide) hdr).bind fun Y y hy => ?_
    refine (hx.smartBinary (f := .add) (by decide) hy).bind fun Z z hz => ?_
    refine hsquares.bind fun W w hw => ?_
    exact hz.smartBinary_nonzero (by decide) hw fun h => nomatch h

end Terms

end FormulaCalculus
