import FormulaCalculus.Proofs.Alike.Powers
import FormulaCalculus.Proofs.Decimal.RoundTrip
import FormulaCalculus.Proofs.Failure.Compilation
import FormulaCalculus.Proofs.Tree.Bindings
import FormulaCalculus.Proofs.Tree.Settled
import FormulaCalculus.Proofs.Tree.WellFormed

/-!
The written forms of derivatives. The derivatives of a formula without imaginary literals are
compiled again from their texts if no number in them is infinite, and then have the same values up
to the signs of zeros: the numbers that lose the sign of their imaginary part are no arguments of
functions that are sensitive to it. An infinite number has no numeral, and a derivative with one is
not compiled again.
-/

namespace FormulaCalculus

open Lexicon

variable {α β : Type}

namespace Constant

/-- Whether a constant is an infinite number. -/
def isInfinite [Scalar α] : Constant α → Bool
  | .number n => Scalar.isInfinite n.value.re
  | _ => false

/-- An ordinary constant can be written, unless it is infinite. -/
theorem Ordinary.printable {c : Constant Double} (hc : c.Ordinary)
    (hfinite : c.isInfinite = false) : c.Printable := by
  cases c with
  | number n =>
    obtain ⟨hreal, hplain⟩ := hc.wellFormed hc.unflagged
    have hfinite : Scalar.isInfinite n.value.re = false := hfinite
    refine ⟨hc.shape, hc.unflagged, hreal, hplain, Double.readsBack_magnitude ?_ hplain.ne_zero⟩
    rw [Scalar.isFinite, hplain.not_nan, hfinite]
    rfl
  | _ => exact hc.shape

variable [Scalar α] [LawfulRounding α] {c : Constant α}

/-- Only the sign of the zero that is the imaginary part gets lost in writing. -/
theorem Ordinary.alike_withWrittenZero (hc : c.Ordinary) :
    c.Alike c.withWrittenZero := by
  cases c with
  | number n =>
    obtain ⟨value, flag, s⟩ := n
    refine .number flag s ⟨.refl _, Or.inl ?_⟩
    have hzero : value.im == Scalar.zero := (hc.wellFormed hc.unflagged).1
    dsimp only
    split_ifs
    · exact LawfulRounding.beq_trans _ _ _ hzero
        (LawfulRounding.beq_symm _ _ LawfulRounding.neg_zero_beq)
    · exact hzero
  | _ => exact .refl _

/-- Powers with the exponents of a constant and of its written form. -/
theorem Ordinary.pow_alike (hc : c.Ordinary) (hexp : c.Upright ∨ ComplexNumber.ExpBlind α)
    {v r : Value α} (h : BinaryFn.pow.onValues v (.symbol c) = .ok r) :
    ∃ q, BinaryFn.pow.onValues v (.symbol c.withWrittenZero) = .ok q ∧ r.Alike q := by
  rcases hexp with hupright | hexp
  · rw [hupright]
    exact ⟨r, h, .refl r⟩
  have halike := hc.alike_withWrittenZero
  cases c with
  | number n =>
    obtain ⟨⟨x, y⟩, flag, t⟩ := n
    obtain ⟨hreal, hplain⟩ := hc.wellFormed hc.unflagged
    have hwritten := halike.value.im.beq_eq Scalar.zero
    exact Value.pow_alike hexp hplain.ne_zero hreal (hwritten.symm.trans hreal) h
  | _ => exact ⟨r, h, .refl r⟩

end Constant

/-! ### Trees -/

namespace Node

/-- The constants, from left to right. -/
def constants : Node α β → List (Constant α)
  | constant c => [c]
  | tensor _ | variableLeaf _ _ => []
  | unary _ a => a.constants
  | binary _ a b => a.constants ++ b.constants

/-- The constants that occur in an exponent. -/
def exponents : Node α β → List (Constant α)
  | constant _ | tensor _ | variableLeaf _ _ => []
  | unary _ a => a.exponents
  | binary f a b => a.exponents ++ b.exponents ++ if f = .pow then b.constants else []

variable {names : List String} {bindings : String → Option β} {wrts : List String}

section Writing

variable {a : Node Double β} (hbound : ∀ p ∈ a.bindings, p.1 ∈ names ∧ bindings p.1 = some p.2)
  (hfinite : ∀ c ∈ a.constants, c.isInfinite = false)

include hbound hfinite

theorem Settled.printable (ha : a.Settled) : a.Printable names bindings := by
  induction a with
  | constant c => exact ha.1.printable (hfinite c List.mem_cons_self)
  | tensor a => exact ha.elim
  | variableLeaf name b => exact hbound (name, b) List.mem_cons_self
  | unary f a ih => exact ih hbound hfinite ha
  | binary f a b iha ihb =>
    obtain ⟨hboundl, hboundr⟩ := List.forall_mem_append.mp hbound
    obtain ⟨hfinitel, hfiniter⟩ := List.forall_mem_append.mp hfinite
    exact ⟨iha hboundl hfinitel ha.1, ihb hboundr hfiniter ha.2⟩

/-- A derived tree can be written if none of its numbers is infinite. -/
theorem Derived.printable (ha : a.Derived) : a.Printable names bindings := by
  induction ha with
  | settled ha => exact ha.printable hbound hfinite
  | folded hc => exact hc.printable (hfinite _ List.mem_cons_self)
  | opposite _ ih => exact ih hbound hfinite
  | ring _ _ _ iha ihb =>
    obtain ⟨hboundl, hboundr⟩ := List.forall_mem_append.mp hbound
    obtain ⟨hfinitel, hfiniter⟩ := List.forall_mem_append.mp hfinite
    exact ⟨iha hboundl hfinitel, ihb hboundr hfiniter⟩
  | quotient _ hb iha =>
    obtain ⟨hboundl, hboundr⟩ := List.forall_mem_append.mp hbound
    obtain ⟨hfinitel, hfiniter⟩ := List.forall_mem_append.mp hfinite
    exact ⟨iha hboundl hfinitel, hb.printable hboundr hfiniter⟩
  | power ha hc =>
    obtain ⟨hboundl, -⟩ := List.forall_mem_append.mp hbound
    obtain ⟨hfinitel, hfiniter⟩ := List.forall_mem_append.mp hfinite
    exact ⟨ha.printable hboundl hfinitel, hc.printable (hfiniter _ List.mem_cons_self)⟩

end Writing

/-- Where a derived tree has a value, the tree with the imaginary parts of the written form has a
value alike. -/
theorem Derived.eval_alike [Scalar α] [LawfulRounding α] {a : Node α β} (ha : a.Derived)
    (hexp : (∀ c ∈ a.exponents, c.Upright) ∨ ComplexNumber.ExpBlind α) {read : β → Tensor α}
    {v : Value α} (h : a.eval read = .ok v) :
    ∃ w, a.withWrittenZeros.eval read = .ok w ∧ v.Alike w := by
  induction ha generalizing v with
  | settled ha =>
    rw [ha.withWrittenZeros]
    exact ⟨v, h, .refl v⟩
  | folded hc =>
    obtain rfl := Except.ok.inj h
    exact ⟨_, rfl, .symbol hc.alike_withWrittenZero⟩
  | opposite _ ih =>
    obtain ⟨u, hu, h⟩ := exists_of_bind_eq_ok h
    obtain rfl := Except.ok.inj h
    obtain ⟨w, hw, huw⟩ := ih hexp hu
    refine ⟨UnaryFn.neg.onValue w, ?_, huw.neg⟩
    rw [withWrittenZeros, eval, hw]
    rfl
  | @ring f a b hf _ _ iha ihb =>
    obtain ⟨x, hx, h⟩ := exists_of_bind_eq_ok h
    obtain ⟨y, hy, h⟩ := exists_of_bind_eq_ok h
    have hside := hexp.imp_left fun hall => List.forall_mem_append.mp
      (List.forall_mem_append.mp hall).1
    obtain ⟨x', hx', hxx'⟩ := iha (hside.imp_left And.left) hx
    obtain ⟨y', hy', hyy'⟩ := ihb (hside.imp_left And.right) hy
    -- a divisor has to be the same, but these three functions have none
    have harithmetic : f.IsArithmetic := by rcases hf with rfl | rfl | rfl <;> decide
    have hdiv : f = .div → y = y' := by
      rintro rfl
      rcases hf with hf | hf | hf <;> cases hf
    rw [withWrittenZeros, eval, hx', hy']
    exact hxx'.onValues harithmetic hyy' hdiv h
  | quotient _ hb iha =>
    obtain ⟨x, hx, h⟩ := exists_of_bind_eq_ok h
    obtain ⟨y, hy, h⟩ := exists_of_bind_eq_ok h
    have hside := hexp.imp_left fun hall => List.forall_mem_append.mp
      (List.forall_mem_append.mp hall).1
    obtain ⟨x', hx', hxx'⟩ := iha (hside.imp_left And.left) hx
    rw [withWrittenZeros, eval, hx', hb.withWrittenZeros, hy]
    exact hxx'.onValues (by decide) (.refl y) (fun _ => rfl) h
  | @power a c ha hc =>
    obtain ⟨x, hx, h⟩ := exists_of_bind_eq_ok h
    obtain ⟨y, hy, h⟩ := exists_of_bind_eq_ok h
    obtain rfl := Except.ok.inj hy
    have hexponent : c.Upright ∨ ComplexNumber.ExpBlind α := hexp.imp_left fun hall =>
      (List.forall_mem_append.mp hall).2 c List.mem_cons_self
    rw [withWrittenZeros, eval, ha.withWrittenZeros, hx]
    exact hc.pow_alike hexponent h

/-- The written form of a derived tree is compiled to a tree with values alike. -/
theorem Derived.compile_text {a : Node Double β} (ha : a.Derived) (hnames : ∀ n ∈ names, IsName n)
    (hbound : ∀ p ∈ a.bindings, p.1 ∈ names ∧ bindings p.1 = some p.2)
    (hfinite : ∀ c ∈ a.constants, c.isInfinite = false)
    (hexp : (∀ c ∈ a.exponents, c.Upright) ∨ Double.ZeroBlind) :
    ∃ e, Expression.compile (standard.withVariables names) bindings a.render = .ok e ∧
      ∀ read v, a.eval read = .ok v → ∃ w, e.root.eval read = .ok w ∧ v.Alike w := by
  have hprintable : a.Printable names bindings := ha.printable hbound hfinite
  refine ⟨_, (a.isWritten_render hnames hprintable).compile, fun read v hv => ?_⟩
  rw [a.eval_reread hprintable]
  exact ha.eval_alike (hexp.imp_right Double.ZeroBlind.expBlind) hv

end Node

/-! ### Compiled trees -/

/-- Whether a token is no imaginary literal. -/
def Token.IsReal : Token α → Prop
  | constant c => c.isImaginary = false
  | _ => True

/-- A literal without the imaginary unit stands for an ordinary constant that is written as it is.
-/
theorem Literal.constant?_settled {cs : List Char} {l : Literal} {c : Constant Double}
    (hl : ofPrefix? cs = some l) (hc : l.constant? = some c) (hreal : c.isImaginary = false) :
    c.Ordinary ∧ c.Upright := by
  have hwellFormed := constant?_wellFormed hl hc
  obtain ⟨d, ds, hdigits, hd⟩ := exists_digit hl
  obtain ⟨n, hn, hc⟩ := Option.map_eq_some_iff.mp hc
  rw [hdigits] at hn
  obtain ⟨m, k, rfl⟩ := Numeral.exists_of_isDigit hd hn
  have hpositive : Scalar.lt (Scalar.ofDecimal m k : Double) Scalar.zero = false :=
    LawfulSigns.ofDecimal m k
  dsimp only at hc
  split_ifs at hc <;> obtain rfl := hc
  · nomatch hreal
  · exact ⟨⟨rfl, hreal, hwellFormed⟩, rfl⟩
  · exact ⟨⟨rfl, hreal, hwellFormed⟩, rfl⟩
  · exact ⟨⟨rfl, hreal, hwellFormed⟩, Constant.upright_ofReal hpositive⟩

namespace Node

variable {names : List String} {bindings : String → Option β}

theorem constructive_settled : Constructive bindings
    (fun t : Token Double => t.OfLiteral ∧ t.IsReal ∧ t.Known names) fun a =>
      a.Settled ∧ ∀ p ∈ a.bindings, p.1 ∈ names ∧ bindings p.1 = some p.2 where
  constant _ := fun ⟨⟨_, _, hn, hc⟩, hreal, _⟩ =>
    ⟨Literal.constant?_settled hn hc hreal, List.forall_mem_nil _⟩
  variableLeaf name b := fun ⟨_, _, hknown⟩ hb => by
    refine ⟨trivial, List.forall_mem_singleton.mpr ⟨?_, hb⟩⟩
    cases hknown with
    | variableName hname => exact hname
    | delimiter ht => nomatch ht
    | applied ht => exact absurd rfl ht.arity_ne_zero
  unary _ _ h := h
  binary _ _ _ ha hb := ⟨⟨ha.1, hb.1⟩, List.forall_mem_append.mpr ⟨ha.2, hb.2⟩⟩

end Node

namespace Expression

variable {bindings : String → Option β} {names : List String} {source : String}

/-- The derivative with respect to one variable after another. -/
def iteratedDerivative [Scalar α] [DecimalText α] (wrts : List String) (e : Expression α β) :
    Except (Error α) (Expression α β) :=
  wrts.foldlM (fun e wrt => e.derivative wrt) e

/-- A derivative has the derived tree and its written form. -/
theorem root_of_iteratedDerivative [Scalar α] [DecimalText α] {e d : Expression α β}
    {wrts : List String} (h : e.iteratedDerivative wrts = .ok d) :
    e.root.iteratedDerivative wrts = .ok d.root ∧ (d = e ∨ d = ofNode d.root) := by
  induction wrts generalizing e with
  | nil =>
    obtain rfl := Except.ok.inj h
    exact ⟨rfl, Or.inl rfl⟩
  | cons wrt wrts ih =>
    rw [iteratedDerivative, List.foldlM_cons] at h
    obtain ⟨b, hb, h⟩ := exists_of_bind_eq_ok h
    obtain ⟨n, hn, hb⟩ := exists_of_bind_eq_ok hb
    obtain rfl := Except.ok.inj hb
    obtain ⟨hroot, hsource⟩ := ih h
    refine ⟨?_, Or.inr ?_⟩
    · rw [Node.iteratedDerivative, List.foldlM_cons, of_mapError_eq_ok hn]
      exact hroot
    · rcases hsource with rfl | hsource
      · rfl
      · exact hsource

/-- The derivatives of a formula without imaginary literals are compiled again from their texts and
have the same values, up to the signs of zeros, if their numbers can be read back; an infinite
number cannot. Negative exponents lose the signs of the zeros that are their imaginary parts, and
the exponential must not tell them apart. -/
theorem compile_source_of_derivative (hnames : ∀ n ∈ names, IsName n) {e d : Expression Double β}
    (hreal : ∀ tokens : List (Token Double),
      (standard.withVariables names).lex source = .ok tokens → ∀ t ∈ tokens, t.IsReal)
    (he : compile (standard.withVariables names) bindings source = .ok e) {wrts : List String}
    (hd : e.iteratedDerivative wrts = .ok d)
    (hfinite : ∀ c ∈ d.root.constants, c.isInfinite = false)
    (hexp : (∀ c ∈ d.root.exponents, c.Upright) ∨ Double.ZeroBlind) :
    ∃ e', compile (standard.withVariables names) bindings d.source = .ok e' ∧
      ∀ read v, d.eval read = .ok v → ∃ w, e'.eval read = .ok w ∧ v.Alike w := by
  obtain ⟨hsettled, hbound⟩ : e.root.Settled ∧
      ∀ p ∈ e.root.bindings, p.1 ∈ names ∧ bindings p.1 = some p.2 := by
    refine Node.constructive_settled.compile (fun tokens hlex t ht => ?_) he
    have hreads := (lex_eq_ok_iff.mp hlex).1
    exact ⟨hreads.ofLiteral t ht, hreal tokens hlex t ht,
      hreads.forall_mem (fun _ _ _ _ => Takes.known) t ht⟩
  obtain ⟨hroot, hsource⟩ := root_of_iteratedDerivative hd
  rcases hsource with rfl | hsource
  -- no derivative was taken: the text is that of the formula
  · obtain ⟨hsource, -⟩ := compile_eq_ok_iff.mp he
    rw [hsource]
    exact ⟨d, he, fun read v hv => ⟨v, hv, .refl v⟩⟩
  -- however many were taken, the tree has the form of a derived one over the same variables
  · have hderived : d.root.Derived := Node.iteratedDerivative_induction
      (fun _ _ _ ha hn => ha.derivative hn) (.settled hsettled) hroot
    have hsubset : d.root.bindings ⊆ e.root.bindings := Node.iteratedDerivative_induction
      (fun _ _ _ ha hn => List.Subset.trans (Node.bindings_derivative_subset hn) ha)
      (List.Subset.refl _) hroot
    obtain ⟨e', he', halike⟩ := hderived.compile_text hnames
      (fun p hp => hbound p (hsubset hp)) hfinite hexp
    refine ⟨e', ?_, fun read v hv => ?_⟩
    · rw [hsource]
      exact he'
    · obtain ⟨w, hw, hvw⟩ := halike read v (of_mapError_eq_ok hv)
      refine ⟨w, ?_, hvw⟩
      rw [eval, hw]
      rfl

theorem isName_of_mem_xy : ∀ n ∈ ["x", "y"], IsName n := by
  have hletter {n : String} {c : Char} (hn : n.toList = [c]) (halpha : c.isAlpha = true)
      (hfunction : ∀ s ∈ standardFunctions, s.spelling ≠ n) : IsName n := by
    refine isName_of_word (fun d hd => ?_) ⟨c, [], hn, halpha⟩ hfunction
    rw [hn] at hd
    obtain rfl := List.mem_singleton.mp hd
    exact Or.inl (by rw [Char.isAlphanum, halpha, Bool.true_or])
  simp only [List.forall_mem_cons]
  exact ⟨hletter (c := 'x') rfl (by decide) (by decide),
    hletter (c := 'y') rfl (by decide) (by decide), List.forall_mem_nil _⟩

/-- The first derivative of `2.5*x^y`. -/
theorem compile_source_of_derivative_power :
    let lexicon := standard.withVariables ["x", "y"]
    let bound (_ : String) : Option Unit := some ()
    ∃ e d e' : Expression Double Unit, compile lexicon bound "2.5*x^y" = .ok e ∧
      e.iteratedDerivative ["x"] = .ok d ∧ d.source = "(2.5*(y*(x^(y-1))))" ∧
        compile lexicon bound "(2.5*(y*(x^(y-1))))" = .ok e' ∧
          ∀ read v, d.eval read = .ok v → ∃ w, e'.eval read = .ok w ∧ v.Alike w := by
  intro lexicon bound
  let x : Node Double Unit := .variableLeaf "x" ()
  let y : Node Double Unit := .variableLeaf "y" ()
  let c : Constant Double := .ofReal (Scalar.ofDecimal 25 (-1))
  let one : Constant Double := .unity [1]
  let tokens : List (Token Double) := [.constant c, .binaryOperator ProductSign.times.operator,
    .variableName "x", .binaryOperator caret, .variableName "y"]
  have hlex : lexicon.lex "2.5*x^y" = .ok tokens := rfl
  have hreal : ∀ ts : List (Token Double), lexicon.lex "2.5*x^y" = .ok ts → ∀ t ∈ ts, t.IsReal := by
    intro ts hts
    obtain rfl := Except.ok.inj (hlex.symm.trans hts)
    simp [tokens, Token.IsReal, c, Constant.ofReal, Constant.isImaginary, Number.ofReal]
  let e : Expression Double Unit := ⟨"2.5*x^y", .binary .mul (.constant c) (.binary .pow x y)⟩
  let root : Node Double Unit := .binary .mul (.constant c)
    (.binary .mul y (.binary .pow x (.binary .sub y (.constant one))))
  have he : compile lexicon bound "2.5*x^y" = .ok e := rfl
  have hd : e.iteratedDerivative ["x"] = .ok (ofNode root) := rfl
  have hsource : (ofNode root).source = "(2.5*(y*(x^(y-1))))" := by decide +kernel
  have hfinite : ∀ c ∈ root.constants, c.isInfinite = false := by
    have hconstants : root.constants = [c, one] := rfl
    have hc : c.isInfinite = false := by decide +kernel
    rw [hconstants]
    exact List.forall_mem_cons.mpr ⟨hc, List.forall_mem_singleton.mpr rfl⟩
  have hexponents : ∀ c ∈ root.exponents, c.Upright := by
    intro b hb
    obtain rfl : b = one := List.mem_singleton.mp hb
    rfl
  obtain ⟨e', he', halike⟩ :=
    compile_source_of_derivative isName_of_mem_xy hreal he hd hfinite (Or.inl hexponents)
  rw [hsource] at he'
  exact ⟨e, ofNode root, e', he, hd, hsource, he', halike⟩

set_option maxRecDepth 20000 in
/-- The derivative of `1e200*(1e200*x)` is infinite. Its text is `inf`, and no token starts with
that. -/
theorem compile_source_of_derivative_overflow :
    let lexicon := standard.withVariables ["x", "y"]
    let bound (_ : String) : Option Unit := some ()
    (∀ n ∈ ["x", "y"], IsName n) ∧ ∃ e d : Expression Double Unit,
      compile lexicon bound "1e200*(1e200*x)" = .ok e ∧ e.iteratedDerivative ["x"] = .ok d ∧
        (∀ read, d.eval read = .ok (.symbol (.ofReal Scalar.infinity))) ∧ d.source = "inf" ∧
          (compile lexicon bound "inf" : Except (Error Double) (Expression Double Unit)) =
            .error (.lex (.noMatch "inf")) := by
  intro lexicon bound
  let c : Node Double Unit := .constant (.ofReal (Scalar.ofDecimal 1 200))
  let x : Node Double Unit := .variableLeaf "x" ()
  let e : Expression Double Unit := ⟨"1e200*(1e200*x)", .binary .mul c (.binary .mul c x)⟩
  let d : Expression Double Unit := ofNode (.constant (.ofReal Scalar.infinity))
  have he : compile lexicon bound "1e200*(1e200*x)" = .ok e := rfl
  have hd : e.iteratedDerivative ["x"] = .ok d := rfl
  have hsource : d.source = "inf" := by decide +kernel
  exact ⟨isName_of_mem_xy, e, d, he, hd, fun _ => rfl, hsource, rfl⟩

end Expression

end FormulaCalculus
