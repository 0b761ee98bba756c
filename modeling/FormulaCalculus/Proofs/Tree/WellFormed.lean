import FormulaCalculus.Proofs.Derivative.Closure
import FormulaCalculus.Proofs.Scalar.Sign
import FormulaCalculus.Proofs.Token.Numeral
import FormulaCalculus.Proofs.Tree.Simplification

/-!
Well-formed trees. The constants that literals stand for are well-formed, and where all leaves of a
tree are, so are its value, the values of its derivatives, and the leaves of its derived trees.
-/

namespace FormulaCalculus

namespace Literal

/-- A literal stands for a well-formed constant. -/
theorem constant?_wellFormed {cs : List Char} {l : Literal} {c : Constant Double}
    (hl : ofPrefix? cs = some l) (hc : l.constant? = some c) : c.WellFormed := by
  obtain ⟨d, ds, hdigits, hd⟩ := exists_digit hl
  obtain ⟨n, hn, hc⟩ := Option.map_eq_some_iff.mp hc
  rw [hdigits] at hn
  obtain ⟨m, k, rfl⟩ := Numeral.exists_of_isDigit hd hn
  obtain ⟨hnan, hnegOne⟩ := Double.ofDecimal_plain m k
  have hvalue : (Numeral.decimal false m k).value = (Scalar.ofDecimal m k : Double) := rfl
  rw [hvalue] at hc
  dsimp only at hc
  split_ifs at hc with himaginary hzero hone
  · obtain rfl := hc
    exact fun h => nomatch h
  · obtain rfl := hc
    trivial
  · obtain rfl := hc
    trivial
  · obtain rfl := hc
    exact fun _ => ⟨ComplexNumber.isReal_ofReal _, Bool.eq_false_iff.mpr hzero,
      Bool.eq_false_iff.mpr hone, hnegOne, hnan⟩

end Literal

namespace Node

variable {α β : Type} [Scalar α]

/-- Whether all constants of a tree are well-formed. -/
def WellFormed : Node α β → Prop
  | constant c => c.WellFormed
  | tensor _ | variableLeaf _ _ => True
  | unary _ a => a.WellFormed
  | binary _ a b => a.WellFormed ∧ b.WellFormed

variable [LawfulScalar α] {read : β → Tensor α} {a b n : Node α β} {v : Value α} {wrt : String}

theorem WellFormed.smartUnary (f : UnaryFn) (h : a.WellFormed) : (smartUnary f a).WellFormed := by
  fun_cases Node.smartUnary f a with
  | case1 => exact f.onConstant_wellFormed h
  | case2 a => exact h
  | case3 => exact h

theorem Simplifies.wellFormed {f : BinaryFn} (h : Simplifies f a b n) (ha : a.WellFormed)
    (hb : b.WellFormed) : n.WellFormed := by
  cases h with
  | keepLeft _ _ => exact ha
  | keepRight _ _ => exact hb
  | negLeft _ _ => exact ha.smartUnary .neg
  | negRight _ _ => exact hb.smartUnary .neg
  | zeroMul s _ => trivial
  | mulZero s _ => trivial
  | powUnity s _ => exact ha
  | powZero s _ => trivial

theorem WellFormed.smartBinary {f : BinaryFn} (ha : a.WellFormed) (hb : b.WellFormed)
    (h : smartBinary f a b = .ok n) : n.WellFormed := by
  rcases smartBinary_cases f a b with ⟨c, d, rfl, rfl, hfold⟩ | ⟨m, hm, hsmart⟩ | hplain
  · obtain ⟨e, he, h⟩ := exists_of_bind_eq_ok (hfold.symm.trans h)
    obtain rfl := Except.ok.inj h
    exact BinaryFn.onConstants_wellFormed ha hb he
  · obtain rfl := Except.ok.inj (hsmart.symm.trans h)
    exact hm.wellFormed ha hb
  · obtain rfl := Except.ok.inj (hplain.symm.trans h)
    exact ⟨ha, hb⟩

theorem real_wellFormed {x : α} (hx : Scalar.Plain x) : (Constant.ofReal x).WellFormed :=
  fun _ => ⟨ComplexNumber.isReal_ofReal x, hx⟩

theorem closed_wellFormed : Terms.Closed (WellFormed (α := α) (β := β)) where
  one := trivial
  half := real_wellFormed LawfulScalar.half_plain
  two := real_wellFormed LawfulScalar.two_plain
  ln10 := real_wellFormed LawfulScalar.ln10_plain
  unary f _ ha := ha.smartUnary f
  binary _ _ _ _ ha hb h := ha.smartBinary hb h

theorem closed_value_wellFormed : Terms.Closed (Value.WellFormed (α := α)) where
  one := trivial
  half := real_wellFormed LawfulScalar.half_plain
  two := real_wellFormed LawfulScalar.two_plain
  ln10 := real_wellFormed LawfulScalar.ln10_plain
  unary f _ hv := f.onValue_wellFormed hv
  binary _ _ _ _ hv hw h := BinaryFn.onValues_wellFormed hv hw h

theorem WellFormed.eval (h : n.WellFormed) (hv : n.eval read = .ok v) : v.WellFormed := by
  induction n generalizing v with
  | constant c =>
    obtain rfl := Except.ok.inj hv
    exact h
  | tensor a =>
    obtain rfl := Except.ok.inj hv
    trivial
  | variableLeaf name b =>
    obtain rfl := Except.ok.inj hv
    trivial
  | unary f a ih =>
    obtain ⟨w, hw, hv⟩ := exists_of_bind_eq_ok hv
    obtain rfl := Except.ok.inj hv
    exact f.onValue_wellFormed (ih h hw)
  | binary f a b iha ihb =>
    obtain ⟨x, hx, hv⟩ := exists_of_bind_eq_ok hv
    obtain ⟨y, hy, hv⟩ := exists_of_bind_eq_ok hv
    exact BinaryFn.onValues_wellFormed (iha h.1 hx) (ihb h.2 hy) hv

theorem WellFormed.diff (h : n.WellFormed) (hv : n.diff read wrt = .ok v) : v.WellFormed := by
  induction n generalizing v with
  | constant c =>
    obtain rfl := Except.ok.inj hv
    trivial
  | tensor a =>
    obtain rfl := Except.ok.inj hv
    trivial
  | variableLeaf name b =>
    obtain rfl := Except.ok.inj hv
    split_ifs <;> trivial
  | unary f a ih =>
    obtain ⟨du, hdu, hv⟩ := exists_of_bind_eq_ok hv
    split_ifs at hv
    · obtain rfl := Except.ok.inj hv
      exact ih h hdu
    · obtain ⟨u, hu, hv⟩ := exists_of_bind_eq_ok hv
      have ha : a.WellFormed := h
      exact closed_value_wellFormed.unaryRule f (ha.eval hu) (ih ha hdu) v hv
  | binary f a b iha ihb =>
    obtain ⟨dl, hdl, hv⟩ := exists_of_bind_eq_ok hv
    obtain ⟨dr, hdr, hv⟩ := exists_of_bind_eq_ok hv
    split_ifs at hv
    · exact BinaryFn.onValues_wellFormed (iha h.1 hdl) (ihb h.2 hdr) hv
    · obtain ⟨l, hl, hv⟩ := exists_of_bind_eq_ok hv
      obtain ⟨r, hr, hv⟩ := exists_of_bind_eq_ok hv
      exact closed_value_wellFormed.binaryRule f (h.1.eval hl) (h.2.eval hr) (iha h.1 hdl)
        (ihb h.2 hdr) v hv

theorem inherited_wellFormed : Inherited (WellFormed (α := α) (β := β)) where
  toClosed := closed_wellFormed
  scalarZero := trivial
  constantZero _ _ := trivial
  tensorZero _ _ := trivial
  unaryChild _ _ h := h
  binaryChildren _ _ _ h := h

theorem WellFormed.derivative (h : a.WellFormed) (hn : a.derivative wrt = .ok n) :
    n.WellFormed :=
  inherited_wellFormed.derivative h hn

/-- The tree of the derivative with respect to one variable after another. -/
def iteratedDerivative (wrts : List String) (n : Node α β) :
    Except (AlgebraError α) (Node α β) :=
  wrts.foldlM (fun n wrt => n.derivative wrt) n

omit [LawfulScalar α] in
/-- A property that a derived tree has as soon as the tree has it. -/
theorem iteratedDerivative_induction {P : Node α β → Prop} {wrts : List String}
    (hstep : ∀ a n wrt, P a → a.derivative wrt = .ok n → P n) (h : P a)
    (hn : a.iteratedDerivative wrts = .ok n) : P n := by
  induction wrts generalizing a with
  | nil =>
    obtain rfl := Except.ok.inj hn
    exact h
  | cons wrt wrts ih =>
    rw [Node.iteratedDerivative, List.foldlM_cons] at hn
    obtain ⟨d, hd, hn⟩ := exists_of_bind_eq_ok hn
    exact ih (hstep a d wrt h hd) hn

theorem WellFormed.iteratedDerivative {wrts : List String} (h : a.WellFormed)
    (hn : a.iteratedDerivative wrts = .ok n) : n.WellFormed :=
  iteratedDerivative_induction (fun _ _ _ ha hn => ha.derivative hn) h hn

/-- Well-formed constants stay so throughout: literals stand for them, functions keep them, and from
well-formed leaves come well-formed values, derivatives and derived trees. -/
theorem wellFormed_throughout :
    (∀ cs l (c : Constant Double), Literal.ofPrefix? cs = some l → l.constant? = some c →
      c.WellFormed) ∧
    (∀ (f : BinaryFn) (c d e : Constant Double), c.WellFormed → d.WellFormed →
      f.onConstants c d = .ok e → e.WellFormed) ∧
    (∀ (f : UnaryFn) (c : Constant Double), c.WellFormed → (f.onConstant c).WellFormed) ∧
    ∀ (β : Type) (n : Node Double β), n.WellFormed →
      ∀ wrts d, n.iteratedDerivative wrts = .ok d → d.WellFormed ∧
        ∀ read : β → Tensor Double,
          (∀ c, d.eval read = .ok (.symbol c) → c.WellFormed) ∧
            ∀ wrt c, d.diff read wrt = .ok (.symbol c) → c.WellFormed := by
  refine ⟨fun _ _ _ => Literal.constant?_wellFormed,
    fun _ _ _ _ => BinaryFn.onConstants_wellFormed,
    fun f _ => f.onConstant_wellFormed, fun β n hn wrts d hd => ?_⟩
  have hderived : d.WellFormed := hn.iteratedDerivative hd
  refine ⟨hderived, fun read => ⟨fun c hc => ?_, fun wrt c hc => ?_⟩⟩
  · exact hderived.eval hc
  · exact hderived.diff hc

/-- The literal `2.5`, its product with itself, and the second derivative of its multiple of a
square. -/
theorem wellFormed_throughout_square :
    let c : Constant Double := .number ⟨.ofReal (Scalar.two + Scalar.half), false, Shape.scalar⟩
    let x : Node Double Unit := .variableLeaf "x" ()
    let n : Node Double Unit := .binary .mul (.constant c) (.unary .square x)
    c.WellFormed ∧ n.WellFormed ∧
      ∃ d, n.iteratedDerivative ["x", "x"] = .ok d ∧ d.WellFormed := by
  intro c x n
  obtain ⟨hliteral, -, -, htree⟩ := wellFormed_throughout
  have hc : c.WellFormed := hliteral "2.5".toList ⟨"2.5".toList, false⟩ c rfl rfl
  have hn : n.WellFormed := ⟨hc, trivial⟩
  obtain ⟨d, hd⟩ : ∃ d, n.iteratedDerivative ["x", "x"] = .ok d := ⟨_, rfl⟩
  exact ⟨hc, hn, d, hd, (htree Unit n hn ["x", "x"] d hd).1⟩

end Node

end FormulaCalculus
