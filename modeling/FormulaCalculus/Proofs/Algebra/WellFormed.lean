import Mathlib.Tactic.SplitIfs
import FormulaCalculus.Algebra.Value
import FormulaCalculus.Proofs.Tensor.Stretching

/-!
Well-formed constants: no number stands where one of the symbols should. Operations on well-formed
constants give well-formed constants, and of these the opposite of the opposite is the same again.
-/

namespace FormulaCalculus

/-- Whether a number is none of those that have a symbol of their own. -/
structure Scalar.Plain {α : Type} [Scalar α] (x : α) : Prop where
  ne_zero : (x == Scalar.zero) = false
  ne_one : (x == Scalar.one) = false
  ne_negOne : (x == -(Scalar.one : α)) = false
  not_nan : Scalar.isNaN x = false

/-- Number systems with the sign laws of IEEE arithmetic. -/
class LawfulScalar (α : Type) [Scalar α] : Prop where
  neg_neg : ∀ x : α, -(-x) = x
  neg_beq : ∀ x y : α, (-x == y) = (x == -y)
  /-- The two zeros compare equal. -/
  beq_neg_zero : ∀ x : α, (x == -(Scalar.zero : α)) = (x == Scalar.zero)
  zero_beq_zero : ((Scalar.zero : α) == Scalar.zero) = true
  isNaN_neg : ∀ x : α, Scalar.isNaN (-x) = Scalar.isNaN x
  half_plain : Scalar.Plain (Scalar.half : α)
  two_plain : Scalar.Plain (Scalar.two : α)
  ln10_plain : Scalar.Plain (Scalar.ln10 : α)

variable {α : Type} [Scalar α]

/-- Whether a constant is a symbol, a number flagged imaginary, or a real number that has no symbol
of its own. -/
def Constant.WellFormed : Constant α → Prop
  | .number n => n.imaginary = false → n.value.isReal = true ∧ Scalar.Plain n.value.re
  | _ => True

/-- Whether a number is flagged imaginary or real. -/
def Number.FlaggedOrReal (n : Number α) : Prop := n.imaginary = true ∨ n.value.isReal = true

def Value.WellFormed : Value α → Prop
  | .tensor _ => True
  | .symbol c => c.WellFormed

theorem Scalar.Plain.neg [LawfulScalar α] {x : α} (h : Scalar.Plain x) : Scalar.Plain (-x) where
  ne_zero := by rw [LawfulScalar.neg_beq, LawfulScalar.beq_neg_zero, h.ne_zero]
  ne_one := by rw [LawfulScalar.neg_beq, h.ne_negOne]
  ne_negOne := by rw [LawfulScalar.neg_beq, LawfulScalar.neg_neg, h.ne_one]
  not_nan := by rw [LawfulScalar.isNaN_neg, h.not_nan]

namespace ComplexNumber

variable [LawfulScalar α]

theorem isReal_ofReal (x : α) : (ofReal x).isReal = true := LawfulScalar.zero_beq_zero

theorem isReal_neg (z : ComplexNumber α) : (-z).isReal = z.isReal := by
  change (-z.im == Scalar.zero) = (z.im == Scalar.zero)
  rw [LawfulScalar.neg_beq, LawfulScalar.beq_neg_zero]

theorem neg_neg (z : ComplexNumber α) : -(-z) = z := by
  obtain ⟨x, y⟩ := z
  change (⟨-(-x), -(-y)⟩ : ComplexNumber α) = ⟨x, y⟩
  rw [LawfulScalar.neg_neg, LawfulScalar.neg_neg]

end ComplexNumber

namespace Constant

theorem ofNumber_wellFormed {n : Number α} (h : n.FlaggedOrReal) : (ofNumber n).WellFormed := by
  unfold ofNumber
  split_ifs with hflag hzero hone hnegOne hnan
  · intro himaginary
    have hreal := h.resolve_left (by simp [himaginary])
    exact absurd hflag (by simp [himaginary, hreal])
  · trivial
  · trivial
  · trivial
  · trivial
  · intro himaginary
    have hreal := h.resolve_left (by simp [himaginary])
    exact ⟨hreal, Bool.eq_false_iff.mpr hzero, Bool.eq_false_iff.mpr hone,
      Bool.eq_false_iff.mpr hnegOne, Bool.eq_false_iff.mpr hnan⟩

/-- A well-formed number is calculated as itself. -/
theorem ofNumber_eq_number {n : Number α} (h : (number n).WellFormed) : ofNumber n = number n := by
  unfold ofNumber
  cases hflag : n.imaginary with
  | true => rw [Bool.true_or, if_pos rfl]
  | false =>
    obtain ⟨hreal, hplain⟩ := h hflag
    simp [hreal, hplain.ne_zero, hplain.ne_one, hplain.ne_negOne, hplain.not_nan]

theorem WellFormed.flaggedOrReal {n : Number α} (h : (number n).WellFormed) : n.FlaggedOrReal := by
  cases hflag : n.imaginary with
  | true => exact Or.inl hflag
  | false => exact Or.inr (h hflag).1

theorem WellFormed.withShape {c : Constant α} (h : c.WellFormed) (s : Shape) :
    (c.withShape s).WellFormed := by
  cases c <;> exact h

/-- A number that is flagged as soon as it is not real. -/
theorem ofNumber_flag_wellFormed (z : ComplexNumber α) (flag : Bool) (s : Shape) :
    (ofNumber ⟨z, flag || !z.isReal, s⟩).WellFormed := by
  apply ofNumber_wellFormed
  cases hreal : z.isReal with
  | true => exact Or.inr hreal
  | false => exact Or.inl (Bool.or_true flag)

variable [LawfulScalar α]

theorem flaggedOrReal_ofReal (x : α) : (Number.ofReal x).FlaggedOrReal :=
  Or.inr (ComplexNumber.isReal_ofReal x)

theorem calculated_wellFormed (x : α) (s : Shape) : (calculated x s).WellFormed :=
  ofNumber_wellFormed (Or.inr (ComplexNumber.isReal_ofReal x))

theorem neg_wellFormed {n : Number α} (h : n.FlaggedOrReal) (s : Shape) :
    (ofNumber ⟨-n.value, n.imaginary, s⟩).WellFormed := by
  apply ofNumber_wellFormed
  refine h.imp_right fun hreal => ?_
  rw [ComplexNumber.isReal_neg, hreal]

theorem combine_wellFormed {m n : Number α} (hm : m.FlaggedOrReal) (hn : n.FlaggedOrReal)
    (realOp : α → α → α) (complexOp : ComplexNumber α → ComplexNumber α → ComplexNumber α)
    (s : Shape) : (Number.combine realOp complexOp m n s).WellFormed := by
  apply ofNumber_wellFormed
  rcases hm with hm | hm
  · exact Or.inl (by simp [hm])
  · rcases hn with hn | hn
    · exact Or.inl (by simp [hn])
    · right
      simp only [Number.asReal?, ComplexNumber.asReal?, hm, hn, if_true]
      exact ComplexNumber.isReal_ofReal _

variable {c d e : Constant α} {s : Shape}

theorem negIn_wellFormed (hc : c.WellFormed) : (c.negIn s).WellFormed := by
  cases c with
  | number n => exact neg_wellFormed hc.flaggedOrReal s
  | _ => trivial

theorem addIn_wellFormed (hc : c.WellFormed) (hd : d.WellFormed) : (c.addIn s d).WellFormed := by
  cases c <;> cases d <;>
    first
    | trivial
    | exact calculated_wellFormed _ s
    | exact hc
    | exact hd
    | exact ofNumber_wellFormed hc.flaggedOrReal
    | exact ofNumber_wellFormed hd.flaggedOrReal
    | exact combine_wellFormed hc.flaggedOrReal hd.flaggedOrReal _ _ s

theorem subIn_wellFormed (hc : c.WellFormed) (hd : d.WellFormed) : (c.subIn s d).WellFormed := by
  have hsum := addIn_wellFormed (s := s) hc (negIn_wellFormed (s := s) hd)
  cases c <;> cases d <;>
    first
    | exact hsum
    | trivial
    | exact combine_wellFormed hc.flaggedOrReal hd.flaggedOrReal _ _ s

theorem mulIn_wellFormed (hc : c.WellFormed) (hd : d.WellFormed) : (c.mulIn s d).WellFormed := by
  cases c <;> cases d <;>
    first
    | trivial
    | exact hc
    | exact hd
    | exact neg_wellFormed hc.flaggedOrReal s
    | exact neg_wellFormed hd.flaggedOrReal s
    | exact combine_wellFormed hc.flaggedOrReal hd.flaggedOrReal _ _ s

theorem divIn_wellFormed (hc : c.WellFormed) (hd : d.WellFormed) : (c.divIn s d).WellFormed := by
  unfold divIn
  split_ifs
  · trivial
  · cases c <;> cases d <;>
      first
      | trivial
      | exact hc
      | exact neg_wellFormed hc.flaggedOrReal s
      | exact combine_wellFormed hc.flaggedOrReal hd.flaggedOrReal _ _ s
      | exact combine_wellFormed (flaggedOrReal_ofReal _) hd.flaggedOrReal _ _ s

omit [LawfulScalar α] in
theorem powOfZeroIn_wellFormed : (d.powOfZeroIn s).WellFormed := by
  cases d with
  | number n =>
    simp only [powOfZeroIn]
    split_ifs <;> trivial
  | _ => trivial

theorem powIn_wellFormed (hc : c.WellFormed) : (c.powIn s d).WellFormed := by
  unfold powIn
  split_ifs
  · exact powOfZeroIn_wellFormed
  · cases c with
    | zero r => exact powOfZeroIn_wellFormed
    | _ =>
      cases d <;>
        first
        | trivial
        | exact ofNumber_wellFormed hc.flaggedOrReal
        | exact combine_wellFormed (flaggedOrReal_ofReal _) hc.flaggedOrReal _ _ s
        | exact ofNumber_flag_wellFormed _ _ s

theorem atan2In_wellFormed (h : c.atan2In s d = .ok e) : e.WellFormed := by
  have hplane (h : (do
      let y ← c.coordinate
      let x ← d.coordinate
      return calculated (Scalar.atan2 y x) s) = .ok e) : e.WellFormed := by
    obtain ⟨y, _, h⟩ := exists_of_bind_eq_ok h
    obtain ⟨x, _, h⟩ := exists_of_bind_eq_ok h
    obtain rfl := Except.ok.inj h
    exact calculated_wellFormed _ s
  have hnan (h : .ok (nan s) = (.ok e : Except (AlgebraError α) _)) : e.WellFormed := by
    obtain rfl := Except.ok.inj h
    trivial
  cases c <;> cases d <;> first | exact hnan h | exact hplane h

end Constant

theorem BinaryFn.onConstants_wellFormed [LawfulScalar α] {f : BinaryFn} {c d e : Constant α}
    (hc : c.WellFormed) (hd : d.WellFormed) (h : f.onConstants c d = .ok e) : e.WellFormed := by
  obtain ⟨s, _, h⟩ := exists_of_bind_eq_ok h
  cases f with
  | add => exact Except.ok.inj h ▸ Constant.addIn_wellFormed hc hd
  | sub => exact Except.ok.inj h ▸ Constant.subIn_wellFormed hc hd
  | mul => exact Except.ok.inj h ▸ Constant.mulIn_wellFormed hc hd
  | div => exact Except.ok.inj h ▸ Constant.divIn_wellFormed hc hd
  | pow => exact Except.ok.inj h ▸ Constant.powIn_wellFormed hc
  | atan2 => exact Constant.atan2In_wellFormed h

namespace UnaryFn

variable [LawfulScalar α]

theorem toConstant_wellFormed (x : ExactValue α) (s : Shape) : (x.toConstant s).WellFormed := by
  cases x with
  | real x => exact Constant.calculated_wellFormed x s
  | imaginaryUnit => exact fun himaginary => nomatch himaginary
  | _ => trivial

theorem atNumber_wellFormed (f : UnaryFn) {n : Number α} (hn : n.FlaggedOrReal) :
    (f.atNumber n).WellFormed := by
  have hother : (if f.isUndefinedAt n then Constant.nan n.shape
      else
        let z := f.numberValue n.value
        Constant.ofNumber ⟨z, n.imaginary || !z.isReal, n.shape⟩).WellFormed := by
    split_ifs
    · trivial
    · exact Constant.ofNumber_flag_wellFormed _ _ _
  cases f with
  | neg => exact Constant.neg_wellFormed hn n.shape
  | abs => exact Constant.calculated_wellFormed _ _
  | _ => exact hother

theorem onConstant_wellFormed (f : UnaryFn) {c : Constant α} (hc : c.WellFormed) :
    (f.onConstant c).WellFormed := by
  cases c with
  | zero s | unity s | negUnity s => exact toConstant_wellFormed _ s
  | nan s => trivial
  | number n => exact f.atNumber_wellFormed hc.flaggedOrReal

theorem onValue_wellFormed (f : UnaryFn) {v : Value α} (hv : v.WellFormed) :
    (f.onValue v).WellFormed := by
  cases v with
  | tensor a => trivial
  | symbol c => exact f.onConstant_wellFormed hv

theorem onConstant_neg {n : Number α} (h : (Constant.number n).WellFormed) :
    neg.onConstant (.number n) = .number { n with value := -n.value } := by
  apply Constant.ofNumber_eq_number
  intro himaginary
  obtain ⟨hreal, hplain⟩ := h himaginary
  exact ⟨(ComplexNumber.isReal_neg n.value).trans hreal, hplain.neg⟩

/-- The opposite of the opposite. -/
theorem onValue_neg_neg {v : Value α} (hv : v.WellFormed) :
    neg.onValue (neg.onValue v) = v := by
  cases v with
  | tensor a =>
    obtain ⟨s, d, hd⟩ := a
    have hdata : (d.map fun x => -x).map (fun x => -x) = d := by
      rw [List.map_map]
      simp [Function.comp_def, LawfulScalar.neg_neg]
    simp only [onValue, Tensor.map, real, hdata]
  | symbol c =>
    cases c with
    | number n =>
      have hneg := onConstant_neg hv
      have hwellFormed := neg.onConstant_wellFormed (c := .number n) hv
      rw [hneg] at hwellFormed
      rw [onValue, onValue, hneg, onConstant_neg hwellFormed]
      simp only [ComplexNumber.neg_neg]
    | _ => rfl

end UnaryFn

end FormulaCalculus
