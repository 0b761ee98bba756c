import FormulaCalculus.Proofs.Call.Composition
import FormulaCalculus.Proofs.Grammar.Operands
import FormulaCalculus.Proofs.Grammar.Precedence
import FormulaCalculus.Proofs.Scalar.Double

/-!
The written form of a tree is compiled to the tree again, up to the leaves that are written as
operations: minus one, negative numbers and the undefined value. Compiled again, a negative number
is the opposite of its magnitude, so the zero that is its imaginary part has a minus; apart from
that both trees have the same values.
-/

namespace FormulaCalculus

open Lexicon

/-- Number systems in which the numerals 0 and 1 stand for zero and one. -/
class LawfulDigits (α : Type) [Scalar α] : Prop where
  zero : ((Scalar.ofDecimal 0 0 : α) == Scalar.zero) = true
  one_ne_zero : ((Scalar.ofDecimal 1 0 : α) == Scalar.zero) = false
  one : ((Scalar.ofDecimal 1 0 : α) == Scalar.one) = true

instance : LawfulDigits Double where
  zero := by decide +kernel
  one_ne_zero := by decide +kernel
  one := by decide +kernel

variable {α β : Type} [Scalar α]

/-- Whether a number is written as a numeral that stands for the same number. -/
structure ReadsBack [DecimalText α] (x : α) : Prop where
  numeral : IsNumeral (DecimalText.render x).toList
  value : (Numeral.parse? (DecimalText.render x).toList).map Numeral.value = some x

/-- The number without its minus. -/
def Scalar.magnitude (x : α) : α := if Scalar.lt x Scalar.zero then -x else x

namespace Constant

/-- Whether a constant has no other shape than its written form: it is a symbol or a real number
without symbol, and the number reads back. -/
def Printable [DecimalText α] : Constant α → Prop
  | .zero s | .unity s | .negUnity s | .nan s => s = Shape.scalar
  | .number n => n.shape = Shape.scalar ∧ n.imaginary = false ∧ n.value.isReal = true ∧
      Scalar.Plain n.value.re ∧ ReadsBack (Scalar.magnitude n.value.re)

/-- The tree of the written form of a constant. -/
def reread : Constant α → Node α β
  | .negUnity s => .unary .neg (.constant (.unity s))
  | .nan s => .binary .div (.constant (.zero s)) (.constant (.zero s))
  | .number n =>
    if Scalar.lt n.value.re Scalar.zero then .unary .neg (.constant (.ofReal (-n.value.re)))
    else .constant (.ofReal n.value.re)
  | c => .constant c

/-- The constant with the imaginary part of its written form: a zero, with the sign of the number.
-/
def withWrittenZero : Constant α → Constant α
  | .number n =>
    let zero : α := if Scalar.lt n.value.re Scalar.zero then -Scalar.zero else Scalar.zero
    .number { n with value := ⟨n.value.re, zero⟩ }
  | c => c

end Constant

namespace Node

/-- Whether the leaves are declared and bound variables and constants that can be written. -/
def Printable [DecimalText α] (names : List String) (bindings : String → Option β) :
    Node α β → Prop
  | constant c => c.Printable
  | tensor _ => False
  | variableLeaf name b => name ∈ names ∧ bindings name = some b
  | unary _ a => a.Printable names bindings
  | binary _ a b => a.Printable names bindings ∧ b.Printable names bindings

/-- The tree of the written form. -/
def reread : Node α β → Node α β
  | constant c => c.reread
  | tensor a => tensor a
  | variableLeaf name b => variableLeaf name b
  | unary f a => unary f a.reread
  | binary f a b => binary f a.reread b.reread

/-- The tree with the imaginary parts of the written form in its constants. -/
def withWrittenZeros : Node α β → Node α β
  | constant c => constant c.withWrittenZero
  | tensor a => tensor a
  | variableLeaf name b => variableLeaf name b
  | unary f a => unary f a.withWrittenZeros
  | binary f a b => binary f a.withWrittenZeros b.withWrittenZeros

end Node

section Evaluation

variable [LawfulScalar α]

/-- The opposite of a number that has no symbol is a number. -/
theorem neg_ofReal {x : α} (hx : Scalar.Plain x) :
    UnaryFn.neg.onConstant (.ofReal x) =
      .number ⟨⟨-x, -Scalar.zero⟩, false, Shape.scalar⟩ := by
  have hzero : (-(Scalar.zero : α) == Scalar.zero) = true := by
    rw [LawfulScalar.neg_beq, LawfulScalar.beq_neg_zero]
    exact LawfulScalar.zero_beq_zero
  have hwellFormed : Constant.WellFormed
      (.number ⟨⟨-x, -Scalar.zero⟩, false, Shape.scalar⟩ : Constant α) :=
    fun _ => ⟨hzero, hx.neg⟩
  exact Constant.ofNumber_eq_number hwellFormed

theorem Constant.reread_ofReal_neg {x : α} (hx : Scalar.lt (-x) Scalar.zero = true) :
    ((Constant.ofReal (-x)).reread : Node α β) = .unary .neg (.constant (.ofReal x)) := by
  have hreread : ((Constant.ofReal (-x)).reread : Node α β) =
      if Scalar.lt (-x) Scalar.zero then .unary .neg (.constant (.ofReal (- -x)))
      else .constant (.ofReal (-x)) := rfl
  rw [hreread, if_pos hx, LawfulScalar.neg_neg]

theorem Constant.printable_ofReal_neg [DecimalText α] {x : α}
    (hnegative : Scalar.lt (-x) Scalar.zero = true) (hplain : Scalar.Plain (-x))
    (hx : ReadsBack x) : (Constant.ofReal (-x)).Printable := by
  refine ⟨rfl, rfl, LawfulScalar.zero_beq_zero, hplain, ?_⟩
  change ReadsBack (Scalar.magnitude (-x))
  rw [Scalar.magnitude, if_pos hnegative, LawfulScalar.neg_neg]
  exact hx

/-- The tree of the written form of a constant has its value. -/
theorem Constant.eval_reread [DecimalText α] {c : Constant α} (hc : c.Printable)
    (read : β → Tensor α) :
    (c.reread : Node α β).eval read = .ok (.symbol c.withWrittenZero) := by
  cases c with
  | zero s | unity s | negUnity s => rfl
  | nan s =>
    obtain rfl : s = Shape.scalar := hc
    rfl
  | number n =>
    obtain ⟨value, imaginary, shape⟩ := n
    obtain ⟨rfl, rfl, -, hplain, -⟩ := hc
    -- A negative number is the opposite of its magnitude, which has no symbol either.
    by_cases hnegative : Scalar.lt value.re Scalar.zero = true
    · have hneg := neg_ofReal hplain.neg
      rw [LawfulScalar.neg_neg] at hneg
      simp only [reread, withWrittenZero, hnegative, if_true, Node.eval]
      exact congrArg (fun d => Except.ok (Value.symbol d)) hneg
    · simp only [reread, withWrittenZero, hnegative]
      rfl

theorem Node.eval_reread [DecimalText α] {names : List String} {bindings : String → Option β}
    {a : Node α β} (ha : a.Printable names bindings) (read : β → Tensor α) :
    a.reread.eval read = a.withWrittenZeros.eval read := by
  induction a with
  | constant c => exact c.eval_reread ha read
  | tensor a => exact ha.elim
  | variableLeaf name b => rfl
  | unary f a ih => rw [reread, withWrittenZeros, eval, eval, ih ha]
  | binary f a b iha ihb => rw [reread, withWrittenZeros, eval, eval, iha ha.1, ihb ha.2]

end Evaluation

/-- Whether a text is an operand that denotes the given tree. -/
def IsWritten (names : List String) (bindings : String → Option β) (s : String) (a : Node α β) :
    Prop :=
  ∃ d : Formula α β .primary, d.tree = a ∧ d.Bound bindings ∧ IsOperandText names s.toList d.tokens

namespace IsWritten

open Formula

variable {names : List String} {bindings : String → Option β} {s t : String} {a b : Node α β}

theorem compile (h : IsWritten names bindings s a) :
    Expression.compile (standard.withVariables names) bindings s = .ok ⟨s, a⟩ := by
  obtain ⟨d, rfl, hbound, htext⟩ := h
  have hreads : Reads (standard.withVariables names) TokenId.start (s.toList ++ [])
      (d.tokens ++ []) := htext.reads (by simp [Stops]) (fun _ _ => .nil) TokenId.start
  rw [List.append_nil, List.append_nil] at hreads
  have hlength := htext.length_le
  refine compile_eq_ok_iff_stages.mpr ⟨d.tokens, d.postfixTokens, hreads, ?_, d.toPostfix_tokens,
    puts_postfixTokens hbound⟩
  omega

theorem negated (h : IsWritten names bindings s a) :
    IsWritten names bindings ("(-" ++ s ++ ")") (.unary .neg a) := by
  obtain ⟨d, rfl, hbound, htext⟩ := h
  refine ⟨.parens (.ofTerm (.negated (.ofPrimary d))), rfl, hbound, ?_⟩
  simpa [String.toList_append, Formula.tokens, parenTokens] using htext.negated

/-- A sign between operands, in parentheses of its own. -/
theorem operation {f : BinaryFn} {sign : String} (hf : f.symbol? = some sign)
    (h : IsWritten names bindings s a) (h' : IsWritten names bindings t b) :
    IsWritten names bindings ("(" ++ s ++ sign ++ t ++ ")") (.binary f a b) := by
  obtain ⟨d, rfl, hd, hs⟩ := h
  obtain ⟨e, rfl, he, ht⟩ := h'
  have hwritten {o : Spelled BinaryOperator} (ho : o ∈ standardBinaryOperators) :
      IsOperandText names ("(" ++ s ++ o.spelling ++ t ++ ")").toList
        (parenTokens (d.tokens ++ .binaryOperator o.token :: e.tokens)) := by
    simpa [String.toList_append] using hs.operation ho ht
  rw [standardBinaryOperators_eq] at hwritten
  cases f with
  | atan2 => simp [BinaryFn.symbol?] at hf
  | pow =>
    obtain rfl := Option.some.inj hf
    exact ⟨.parens (.ofTerm (.ofPower (.raised d (.ofPrimary e)))), rfl, ⟨hd, he⟩,
      hwritten (o := ⟨"^", caret⟩) (by simp)⟩
  | mul =>
    obtain rfl := Option.some.inj hf
    exact ⟨.parens (.ofTerm (.product (.ofPower (.ofPrimary d)) .times (.ofPrimary e))), rfl,
      ⟨hd, he⟩, hwritten (o := ⟨"*", ProductSign.times.operator⟩) (by simp)⟩
  | div =>
    obtain rfl := Option.some.inj hf
    exact ⟨.parens (.ofTerm (.product (.ofPower (.ofPrimary d)) .divided (.ofPrimary e))), rfl,
      ⟨hd, he⟩, hwritten (o := ⟨"/", ProductSign.divided.operator⟩) (by simp)⟩
  | add =>
    obtain rfl := Option.some.inj hf
    exact ⟨.parens (.sum (.ofTerm (.ofPower (.ofPrimary d))) .plus (.ofPower (.ofPrimary e))), rfl,
      ⟨hd, he⟩, hwritten (o := ⟨"+", SumSign.plus.operator⟩) (by simp)⟩
  | sub =>
    obtain rfl := Option.some.inj hf
    exact ⟨.parens (.sum (.ofTerm (.ofPower (.ofPrimary d))) .less (.ofPower (.ofPrimary e))), rfl,
      ⟨hd, he⟩, hwritten (o := ⟨"-", SumSign.less.operator⟩) (by simp)⟩

variable (hnames : ∀ n ∈ names, IsName n)

include hnames

theorem call {f : UnaryFn} (hf : f ≠ .neg) (h : IsWritten names bindings s a) :
    IsWritten names bindings (f.name ++ "(" ++ s ++ ")") (.unary f a) := by
  obtain ⟨d, rfl, hbound, htext⟩ := h
  refine ⟨.call f hf (.ofTerm (.ofPower (.ofPrimary d))), rfl, hbound, ?_⟩
  simpa [String.toList_append, Formula.tokens, parenTokens] using htext.call hnames hf

theorem pairCall (f : PairFn) (h : IsWritten names bindings s a)
    (h' : IsWritten names bindings t b) :
    IsWritten names bindings (f.name ++ "(" ++ s ++ "," ++ t ++ ")") (.binary f.fn a b) := by
  obtain ⟨d, rfl, hd, hs⟩ := h
  obtain ⟨e, rfl, he, ht⟩ := h'
  refine ⟨.pairCall f d (.ofTerm (.ofPower (.ofPrimary e))), rfl, ⟨hd, he⟩, ?_⟩
  simpa [String.toList_append, Formula.tokens, parenTokens] using hs.pairCall hnames f ht

theorem variableLeaf {n : String} {v : β} (hn : n ∈ names) (hv : bindings n = some v) :
    IsWritten names bindings n (.variableLeaf n v : Node α β) :=
  ⟨.variableLeaf n v, rfl, hv, .name hnames hn⟩

theorem numeral (hs : IsNumeral s.toList) {c : Constant α}
    (hc : (⟨s.toList, false⟩ : Literal).constant? = some c) :
    IsWritten names bindings s (.constant c) :=
  ⟨.constant c, rfl, trivial, .numeral hnames hs hc⟩

theorem zero [LawfulDigits α] :
    IsWritten names bindings "0" (.constant (.zero Shape.scalar) : Node α β) := by
  refine numeral hnames ⟨['0'], [], by simp, by simp, by simp, rfl⟩ ?_
  have hparse : Numeral.parse? "0".toList = some (.decimal false 0 0) := rfl
  rw [Literal.constant?, hparse]
  simp [Numeral.value, LawfulDigits.zero]

theorem unity [LawfulDigits α] :
    IsWritten names bindings "1" (.constant (.unity Shape.scalar) : Node α β) := by
  refine numeral hnames ⟨['1'], [], by simp, by simp, by simp, rfl⟩ ?_
  have hparse : Numeral.parse? "1".toList = some (.decimal false 1 0) := rfl
  rw [Literal.constant?, hparse]
  simp [Numeral.value, LawfulDigits.one_ne_zero, LawfulDigits.one]

theorem number [DecimalText α] {x : α} (hx : ReadsBack x) (hplain : Scalar.Plain x) :
    IsWritten names bindings (DecimalText.render x) (.constant (.ofReal x) : Node α β) := by
  refine numeral hnames hx.numeral ?_
  obtain ⟨n, hparse, hvalue⟩ := Option.map_eq_some_iff.mp hx.value
  simp [Literal.constant?, hparse, hvalue, hplain.ne_zero, hplain.ne_one]

end IsWritten

section Text

variable [DecimalText α] [LawfulScalar α] [LawfulDigits α] {names : List String}
  {bindings : String → Option β}

theorem Constant.isWritten_render (hnames : ∀ n ∈ names, IsName n) {c : Constant α}
    (hc : c.Printable) : IsWritten names bindings c.render (c.reread : Node α β) := by
  cases c with
  | zero s =>
    obtain rfl : s = Shape.scalar := hc
    exact .zero hnames
  | unity s =>
    obtain rfl : s = Shape.scalar := hc
    exact .unity hnames
  | negUnity s =>
    obtain rfl : s = Shape.scalar := hc
    exact (IsWritten.unity hnames).negated
  | nan s =>
    obtain rfl : s = Shape.scalar := hc
    exact (IsWritten.zero hnames).operation (f := .div) rfl (IsWritten.zero hnames)
  | number n =>
    obtain ⟨-, -, hreal, hplain, hreads⟩ := hc
    by_cases hnegative : Scalar.lt n.value.re Scalar.zero = true
    · simp only [Scalar.magnitude, hnegative, if_true] at hreads
      simp only [render, ComplexNumber.render, reread, hreal, hnegative, if_true]
      exact (IsWritten.number hnames hreads hplain.neg).negated
    · simp only [Scalar.magnitude, hnegative] at hreads
      simp only [render, ComplexNumber.render, reread, hreal, hnegative, if_true]
      exact IsWritten.number hnames hreads hplain

theorem Node.isWritten_render (hnames : ∀ n ∈ names, IsName n) {a : Node α β}
    (ha : a.Printable names bindings) : IsWritten names bindings a.render a.reread := by
  induction a with
  | constant c => exact c.isWritten_render hnames ha
  | tensor a => exact ha.elim
  | variableLeaf name b => exact .variableLeaf hnames ha.1 ha.2
  | unary f a ih =>
    by_cases hf : f = .neg
    · subst hf
      exact (ih ha).negated
    · -- Every other function is written as a call of its name.
      have hcall := (ih ha).call hnames hf
      cases f <;> first | exact absurd rfl hf | exact hcall
  | binary f a b iha ihb =>
    obtain ⟨ha, hb⟩ := ha
    cases hf : f.symbol? with
    | some sign =>
      have hoperation := (iha ha).operation hf (ihb hb)
      simpa only [render, reread, hf] using hoperation
    | none =>
      cases f with
      | atan2 => exact (iha ha).pairCall hnames .atan2 (ihb hb)
      | _ => simp [BinaryFn.symbol?] at hf

/-- The written form of a tree is compiled to the tree of the written form. It has the values of the
tree with the imaginary parts of the written form, so those of the tree itself if it has them. -/
theorem Node.compile_render (hnames : ∀ n ∈ names, IsName n) {a : Node α β}
    (ha : a.Printable names bindings) :
    Expression.compile (standard.withVariables names) bindings a.render =
        .ok ⟨a.render, a.reread⟩ ∧
      (∀ read, a.reread.eval read = a.withWrittenZeros.eval read) ∧
      (a.withWrittenZeros = a → ∀ read, a.reread.eval read = a.eval read) := by
  have hcompile := (a.isWritten_render hnames ha).compile
  have heval := a.eval_reread ha
  refine ⟨hcompile, heval, fun hsame read => ?_⟩
  rw [heval, hsame]

end Text

/-- The difference of `x_1` and minus two and a half, as an angle with the undefined value. -/
theorem Node.compile_render_difference :
    let x : Node Double Unit := .variableLeaf "x_1" ()
    let half : Double := Scalar.ofDecimal 25 (-1)
    let number (y : Double) : Node Double Unit := .constant (.ofReal y)
    let zero : Node Double Unit := .constant (.zero Shape.scalar)
    let a : Node Double Unit :=
      .binary .atan2 (.binary .sub x (number (-half))) (.constant (.nan Shape.scalar))
    let text := "atan2((x_1-(-2.5)),(0/0))"
    (∀ n ∈ ["x_1"], IsName n) ∧ a.Printable ["x_1"] (fun _ => some ()) ∧ a.render = text ∧
      Expression.compile (standard.withVariables ["x_1"]) (fun _ => some ()) text =
        .ok ⟨text, .binary .atan2 (.binary .sub x (.unary .neg (number half)))
          (.binary .div zero zero)⟩ := by
  have hnames : ∀ n ∈ ["x_1"], IsName n := by
    intro n hn
    obtain rfl := List.mem_singleton.mp hn
    have hspelling : "x_1".toList = ['x', '_', '1'] := rfl
    refine isName_of_word ?_ ⟨'x', ['_', '1'], hspelling, by decide⟩ (by decide)
    simp [hspelling]
  intro x half number zero a text
  have hnegative : Scalar.lt (-half) Scalar.zero = true := by decide +kernel
  have hplain : Scalar.Plain (-half) :=
    ⟨by decide +kernel, by decide +kernel, by decide +kernel, by decide +kernel⟩
  have hrender : DecimalText.render half = "2.5" := by decide +kernel
  have hreads : ReadsBack half := by
    refine ⟨?_, ?_⟩
    · rw [hrender]
      exact ⟨['2'], ['5'], by simp, by simp, by simp, rfl⟩
    · rw [hrender]
      rfl
  have hconstant := Constant.printable_ofReal_neg hnegative hplain hreads
  have hprintable : a.Printable ["x_1"] (fun _ => some ()) :=
    ⟨⟨⟨List.mem_singleton.mpr rfl, rfl⟩, hconstant⟩, rfl⟩
  have htext : a.render = text := by decide +kernel
  obtain ⟨hcompile, -⟩ := a.compile_render hnames hprintable
  have hreread : a.reread = .binary .atan2 (.binary .sub x (.unary .neg (number half)))
      (.binary .div zero zero) := by
    have hnumber := Constant.reread_ofReal_neg (β := Unit) hnegative
    simp only [a, reread, number, hnumber]
    rfl
  rw [htext, hreread] at hcompile
  exact ⟨hnames, hprintable, htext, hcompile⟩

/-- The square root of minus four is written `sqrt((-4))`. Its value is twice the imaginary unit,
but the tree of the written form has the opposite value: on the negative real line the square root
follows the sign of the zero that is the imaginary part. -/
theorem Node.eval_reread_sqrt_negative :
    let four : Double := Scalar.ofDecimal 4 0
    let a : Node Double Unit := .unary .sqrt (.constant (.ofReal (-four)))
    let b : Node Double Unit := .unary .sqrt (.unary .neg (.constant (.ofReal four)))
    a.Printable [] (fun _ => none) ∧ a.render = "sqrt((-4))" ∧
      Expression.compile (standard.withVariables []) (fun _ => none) "sqrt((-4))" =
        .ok ⟨"sqrt((-4))", b⟩ ∧
      ∃ y z : Constant Double, (∀ read, a.eval read = .ok (.symbol y)) ∧
        (∀ read, b.eval read = .ok (.symbol z)) ∧
          (y.value.im == Scalar.two) = true ∧ (z.value.im == -Scalar.two) = true := by
  intro four a b
  have hnegative : Scalar.lt (-four) Scalar.zero = true := by decide +kernel
  have hplain : Scalar.Plain (-four) :=
    ⟨by decide +kernel, by decide +kernel, by decide +kernel, by decide +kernel⟩
  have hrender : DecimalText.render four = "4" := by decide +kernel
  have hreads : ReadsBack four := by
    refine ⟨?_, ?_⟩
    · rw [hrender]
      exact ⟨['4'], [], by simp, by simp, by simp, rfl⟩
    · rw [hrender]
      rfl
  have hprintable : a.Printable [] (fun _ => none) :=
    Constant.printable_ofReal_neg hnegative hplain hreads
  have htext : a.render = "sqrt((-4))" := by decide +kernel
  have hreread : a.reread = b := by
    have hnumber := Constant.reread_ofReal_neg (β := Unit) hnegative
    simp only [a, reread, hnumber]
    rfl
  have hcompile := (a.isWritten_render (by simp) hprintable).compile
  rw [htext, hreread] at hcompile
  refine ⟨hprintable, htext, hcompile, UnaryFn.sqrt.onConstant (.ofReal (-four)),
    UnaryFn.sqrt.onConstant (UnaryFn.neg.onConstant (.ofReal four)), fun _ => rfl, fun _ => rfl,
    ?_, ?_⟩
  · decide +kernel
  · decide +kernel

end FormulaCalculus
