import FormulaCalculus.Proofs.Filling.Constants

/-!
Constants on the real line: those without imaginary part that are not flagged imaginary either.
Sums, differences, products, quotients and angles of them are on the real line again, and so are the
functions of one operand, except those that take real numbers outside their domain to complex ones.
An infinite or undefined number is on the real line as well and does not lead away from it.
-/

namespace FormulaCalculus

/-- Whether the function takes some real number to a complex one. The logarithms and the inverse
hyperbolic cosine do not: outside their domain they are undefined. -/
def UnaryFn.leavesRealLine : UnaryFn → Bool
  | sqrt | asin | acos | atanh => true
  | _ => false

variable {α : Type} [Scalar α]

namespace Constant

/-- Whether a constant has no imaginary part and is not flagged imaginary. -/
structure OnRealLine (c : Constant α) : Prop where
  unflagged : c.isImaginary = false
  isReal : c.IsReal

theorem isImaginary_ofNumber (n : Number α) : (ofNumber n).isImaginary = n.imaginary := by
  unfold ofNumber
  split_ifs with hflag
  · rfl
  all_goals simp_all [isImaginary]

omit [Scalar α] in
theorem isImaginary_withShape (c : Constant α) (s : Shape) :
    (c.withShape s).isImaginary = c.isImaginary := by
  cases c <;> rfl

namespace OnRealLine

variable [LawfulScalar α] {c d e : Constant α} {m n : Number α} {s : Shape}

theorem zero (s : Shape) : (zero s : Constant α).OnRealLine := ⟨rfl, ComplexNumber.isReal_ofReal _⟩

theorem unity (s : Shape) : (unity s : Constant α).OnRealLine :=
  ⟨rfl, ComplexNumber.isReal_ofReal _⟩

theorem negUnity (s : Shape) : (negUnity s : Constant α).OnRealLine :=
  ⟨rfl, ComplexNumber.isReal_ofReal _⟩

theorem nan (s : Shape) : (nan s : Constant α).OnRealLine := ⟨rfl, ComplexNumber.isReal_ofReal _⟩

theorem ofNumber (hflag : n.imaginary = false) (hreal : n.value.isReal = true) :
    (ofNumber n).OnRealLine :=
  ⟨(isImaginary_ofNumber n).trans hflag, isReal_ofNumber hreal⟩

theorem calculated (x : α) (s : Shape) : (calculated x s).OnRealLine :=
  ofNumber rfl (ComplexNumber.isReal_ofReal x)

omit [LawfulScalar α] in
theorem withShape (hc : c.OnRealLine) (s : Shape) : (c.withShape s).OnRealLine := by
  refine ⟨(isImaginary_withShape c s).trans hc.unflagged, ?_⟩
  rw [IsReal, value_withShape]
  exact hc.isReal

theorem negIn (hc : c.OnRealLine) : (c.negIn s).OnRealLine := by
  refine ⟨?_, isReal_negIn hc.isReal⟩
  cases c with
  | number n => exact (isImaginary_ofNumber _).trans hc.unflagged
  | _ => rfl

/-- Two real numbers are combined on the real line. -/
theorem combine {realOp : α → α → α}
    {complexOp : ComplexNumber α → ComplexNumber α → ComplexNumber α}
    (hm : (number m).OnRealLine) (hn : (number n).OnRealLine) :
    (Number.combine realOp complexOp m n s).OnRealLine := by
  have hvalues : m.asReal? = some m.value.re ∧ n.asReal? = some n.value.re :=
    ⟨asReal?_of_isReal hm.isReal, asReal?_of_isReal hn.isReal⟩
  have hflags : (m.imaginary || n.imaginary) = false :=
    Bool.or_eq_false_iff.mpr ⟨hm.unflagged, hn.unflagged⟩
  apply ofNumber hflags
  simp only [hvalues.1, hvalues.2]
  exact ComplexNumber.isReal_ofReal _

theorem addIn (hc : c.OnRealLine) (hd : d.OnRealLine) : (c.addIn s d).OnRealLine := by
  cases c <;> cases d <;>
    first
    | exact nan s
    | exact zero s
    | exact calculated _ s
    | exact hc.withShape s
    | exact hd.withShape s
    | exact ofNumber hc.unflagged hc.isReal
    | exact ofNumber hd.unflagged hd.isReal
    | exact combine hc hd

theorem subIn (hc : c.OnRealLine) (hd : d.OnRealLine) : (c.subIn s d).OnRealLine := by
  -- with a symbol on either side, the difference is a sum with the opposite
  have hsum : (c.addIn s (d.negIn s)).OnRealLine := addIn hc (negIn hd)
  cases c <;> cases d <;>
    first
    | exact hsum
    | exact nan s
    | exact combine hc hd

theorem mulIn (hc : c.OnRealLine) (hd : d.OnRealLine) : (c.mulIn s d).OnRealLine := by
  cases c <;> cases d <;>
    first
    | exact nan s
    | exact zero s
    | exact unity s
    | exact hc.withShape s
    | exact hd.withShape s
    | exact negIn hc
    | exact negIn hd
    | exact combine hc hd

theorem divIn (hc : c.OnRealLine) (hd : d.OnRealLine) : (c.divIn s d).OnRealLine := by
  unfold Constant.divIn
  split_ifs
  · exact nan s
  · cases c <;> cases d <;>
      first
      | exact nan s
      | exact zero s
      | exact hc.withShape s
      | exact negIn hc
      | exact combine hc hd
      | exact combine ⟨rfl, ComplexNumber.isReal_ofReal _⟩ hd

theorem atan2In (h : c.atan2In s d = .ok e) : e.OnRealLine := by
  have hplane (h : (do
      let y ← c.coordinate
      let x ← d.coordinate
      return Constant.calculated (Scalar.atan2 y x) s) = .ok e) : e.OnRealLine := by
    obtain ⟨y, -, h⟩ := exists_of_bind_eq_ok h
    obtain ⟨x, -, h⟩ := exists_of_bind_eq_ok h
    exact Except.ok.inj h ▸ calculated _ s
  have hnan (h : .ok (Constant.nan s) = (.ok e : Except (AlgebraError α) _)) : e.OnRealLine :=
    Except.ok.inj h ▸ nan s
  cases c <;> cases d <;> first | exact hnan h | exact hplane h

/-- A function of two constants on the real line, other than a power. -/
theorem onConstants {f : BinaryFn} (hf : f ≠ .pow) (hc : c.OnRealLine) (hd : d.OnRealLine)
    (h : f.onConstants c d = .ok e) : e.OnRealLine := by
  obtain ⟨s, -, h⟩ := exists_of_bind_eq_ok h
  cases f with
  | add => exact Except.ok.inj h ▸ addIn hc hd
  | sub => exact Except.ok.inj h ▸ subIn hc hd
  | mul => exact Except.ok.inj h ▸ mulIn hc hd
  | div => exact Except.ok.inj h ▸ divIn hc hd
  | pow => exact absurd rfl hf
  | atan2 => exact atan2In h

end OnRealLine

end Constant

namespace UnaryFn

open Constant (OnRealLine calculated)

variable [LawfulScalar α] {f : UnaryFn} {n : Number α} {x : α}

/-- A number on the real line, in the domain of a function, goes to another one. -/
theorem onConstant_of_inDomain (hneg : f ≠ .neg) (habs : f ≠ .abs)
    (hn : (Constant.number n).OnRealLine) (hdomain : f.inDomain n.value.re = true) :
    f.onConstant (.number n) = calculated (f.real n.value.re) n.shape := by
  have hflag : n.imaginary = false := hn.unflagged
  have hvalue : n.value.asReal? = some n.value.re := Constant.asReal?_of_isReal hn.isReal
  have hdefined : f.isUndefinedAt n = false := by
    simp [isUndefinedAt, Number.asReal?, hvalue, hdomain]
  have hnumber : f.numberValue n.value = .ofReal (f.real n.value.re) := by
    simp [numberValue, hvalue, hdomain]
  have hother : (if f.isUndefinedAt n then Constant.nan n.shape
      else
        let z := f.numberValue n.value
        Constant.ofNumber ⟨z, n.imaginary || !z.isReal, n.shape⟩) =
      calculated (f.real n.value.re) n.shape := by
    simp [hdefined, hnumber, hflag, ComplexNumber.isReal_ofReal, calculated]
  cases f with
  | neg => exact absurd rfl hneg
  | abs => exact absurd rfl habs
  | _ => exact hother

omit [LawfulScalar α] in
/-- A function that stays on the real line is undefined outside its domain. -/
theorem isRealOnly_of_not_inDomain (hf : f.leavesRealLine = false) (hx : f.inDomain x = false) :
    f.isRealOnly = true := by
  cases f <;> first | rfl | exact Bool.noConfusion hx | exact Bool.noConfusion hf

omit [LawfulScalar α] in
theorem onConstant_of_not_inDomain (hf : f.leavesRealLine = false)
    (hn : (Constant.number n).OnRealLine) (hdomain : f.inDomain n.value.re = false) :
    f.onConstant (.number n) = .nan n.shape := by
  have honly := isRealOnly_of_not_inDomain hf hdomain
  have hflag : n.imaginary = false := hn.unflagged
  have hvalue : n.asReal? = some n.value.re := Constant.asReal?_of_isReal hn.isReal
  have hundefined : f.isUndefinedAt n = true := by
    simp [isUndefinedAt, honly, hflag, hvalue, hdomain]
  cases f <;> first | exact Bool.noConfusion honly | exact if_pos hundefined

theorem toConstant_onRealLine {x : ExactValue α} (hx : x ≠ .imaginaryUnit) (s : Shape) :
    (x.toConstant s).OnRealLine := by
  cases x with
  | zero => exact .zero s
  | unity => exact .unity s
  | negUnity => exact .negUnity s
  | nan => exact .nan s
  | real x => exact .calculated x s
  | imaginaryUnit => exact absurd rfl hx

/-- A function of a constant on the real line, other than a root or an inverse whose real domain is
bounded on both sides. -/
theorem onConstant_onRealLine (hf : f.leavesRealLine = false) {c : Constant α}
    (hc : c.OnRealLine) : (f.onConstant c).OnRealLine := by
  cases c with
  | zero s =>
    have hexact : f.atZero ≠ (.imaginaryUnit : ExactValue α) := by cases f <;> nofun
    exact toConstant_onRealLine hexact s
  | unity s =>
    have hexact : f.atUnity ≠ (.imaginaryUnit : ExactValue α) := by cases f <;> nofun
    exact toConstant_onRealLine hexact s
  | negUnity s =>
    have hexact : f.atNegUnity ≠ (.imaginaryUnit : ExactValue α) := by
      cases f <;> first | exact Bool.noConfusion hf | nofun
    exact toConstant_onRealLine hexact s
  | nan s => exact .nan s
  | number n =>
    by_cases hneg : f = .neg
    · obtain rfl := hneg
      exact OnRealLine.negIn (s := n.shape) hc
    · by_cases habs : f = .abs
      · obtain rfl := habs
        exact .calculated _ _
      · cases hdomain : f.inDomain n.value.re with
        | true =>
          rw [onConstant_of_inDomain hneg habs hc hdomain]
          exact .calculated _ _
        | false =>
          rw [onConstant_of_not_inDomain hf hc hdomain]
          exact .nan _

end UnaryFn

end FormulaCalculus
