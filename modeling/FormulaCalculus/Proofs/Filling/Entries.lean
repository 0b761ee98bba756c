import FormulaCalculus.Proofs.Algebra.Uniform
import FormulaCalculus.Proofs.Filling.Powers

/-!
The entries of a function of a tensor and a constant, and of two tensors, compared with the function
of the operands' entries. A short cut gives the same finite number, except that the symbol for zero
times a number that is not finite is zero.
-/

namespace FormulaCalculus

open Scalar (isFinite isInfinite isNaN)
open LawfulArithmetic LawfulPower
open Shape (join? volume)
open ComplexNumber (gives_ofReal gives_of_beq gives_nan)

variable {α : Type} [Scalar α]

/-- The entries of a value; every entry of a symbol is its constant. -/
def Value.entries : Value α → List (ComplexNumber α)
  | .tensor a => a.data.map .ofReal
  | .symbol c => List.replicate (volume c.shape) c.value

/-- Whether an entry of a result gives what the function of the operands' entries is, or is a zero
that has absorbed what is not finite. -/
def ComplexNumber.Entry (absorbs : Prop) (z : ComplexNumber α) (k : α) : Prop :=
  z.Gives k ∨ absorbs ∧ z = .zero ∧ isFinite k = false

/-- Whether a calculation succeeds with a value of the given shape, each entry of which stands to
its number as told. -/
def YieldsEntries (m : Except (AlgebraError α) (Value α)) (s : Shape)
    (R : ComplexNumber α → α → Prop) (ks : List α) : Prop :=
  ∃ r, m = .ok r ∧ r.shape = s ∧ List.Forall₂ R r.entries ks

section Operations

variable {absorbs : Prop} {a : Tensor α} {c : Constant α} {s : Shape}

/-- A function of the entries gives what another one is if both are equal wherever it is finite. -/
theorem entries_combineWith [LawfulArithmetic α] {g h : α → α} (hs : join? a.shape c.shape = some s)
    (haddressable : s.isAddressable = true) (hg : ∀ x, isFinite (g x) → h x == g x) :
    YieldsEntries (a.combineWith g c) s (ComplexNumber.Entry absorbs)
      ((a.entriesIn s).map h) := by
  obtain ⟨b, hb, rfl, hstretch⟩ := Tensor.exists_mapIn (ε := α) g hs haddressable
  refine ⟨.tensor b, ?_, rfl, ?_⟩
  · rw [Tensor.combineWith, hb]
    rfl
  · rw [Value.entries, hstretch.data, Tensor.entriesIn_map g (Shape.join?_eq_some hs).1,
      List.map_map, List.forall₂_map_left_iff, List.forall₂_map_right_iff, List.forall₂_same]
    exact fun x _ => Or.inl (gives_ofReal fun hx => beq_symm _ _ (hg x hx))

/-- Each entry of a symbol is its constant, so it must stand so to all numbers. -/
theorem entries_symbol {h : α → α} (hc : c.shape = s)
    (hlength : (a.entriesIn s).length = volume s)
    (hentry : ∀ x ∈ a.entriesIn s, c.value.Entry absorbs (h x)) :
    YieldsEntries (.ok (.symbol c)) s (ComplexNumber.Entry absorbs)
      ((a.entriesIn s).map h) := by
  have hentries : (Value.symbol c).entries = (a.entriesIn s).map fun _ => c.value := by
    rw [List.map_const', hlength, Value.entries, hc]
  refine ⟨.symbol c, rfl, hc, ?_⟩
  rw [hentries, List.forall₂_map_left_iff, List.forall₂_map_right_iff, List.forall₂_same]
  exact hentry

theorem realPart_of_isReal (hc : c.IsReal) (name : String) :
    Value.realPart name c = .ok c.real := by
  rw [Value.realPart, Constant.asReal?_of_isReal hc]
  rfl

end Operations

namespace BinaryFn

variable [LawfulArithmetic α] [LawfulPower α] {a : Tensor α} {c : Constant α} {s : Shape}

theorem entries_onTensorConstant (f : BinaryFn) (hc : c.IsReal)
    (hs : join? a.shape c.shape = some s) (haddressable : s.isAddressable = true) :
    YieldsEntries (f.onTensorConstant a c) s
      (ComplexNumber.Entry (f = .mul ∧ c.isZero = true))
      ((a.entriesIn s).map fun x => f.real x c.real) := by
  have hlength := Tensor.length_entriesIn_of_stretchesTo (Shape.join?_eq_some hs).1
  -- A short cut is entry by entry or a symbol; without one the real function is used.
  have hreal : YieldsEntries (Value.realPart f.name c >>= fun y =>
      a.combineWith (fun x => f.real x y) c) s
        (ComplexNumber.Entry (f = .mul ∧ c.isZero = true))
        ((a.entriesIn s).map fun x => f.real x c.real) := by
    rw [realPart_of_isReal hc]
    exact entries_combineWith hs haddressable fun x => beq_refl _
  unfold onTensorConstant
  rw [Tensor.joinShapes_eq_ok.mpr hs]
  cases c with
  | nan r => exact entries_symbol rfl hlength fun x _ => Or.inl (gives_nan _)
  | zero r =>
    cases f with
    | add => exact entries_combineWith hs haddressable add_zero
    | sub => exact entries_combineWith hs haddressable fun _ => sub_zero
    | mul =>
      refine entries_symbol rfl hlength fun x _ => ?_
      cases hk : isFinite (x * Scalar.zero) with
      | true =>
        have hx := (isFinite_of_mul _ _ hk).1
        exact Or.inl (gives_of_beq (mul_zero x hx))
      | false => exact Or.inr ⟨⟨rfl, rfl⟩, rfl, hk⟩
    | div => exact entries_symbol rfl hlength fun x _ => Or.inl (gives_nan _)
    | pow =>
      have hpow (x : α) : Scalar.pow x Scalar.zero == Scalar.one :=
        pow_zero _ _ LawfulScalar.zero_beq_zero
      exact entries_symbol rfl hlength fun x _ => Or.inl (gives_of_beq (hpow x))
    | atan2 => exact hreal
  | unity r =>
    cases f with
    | mul => exact entries_combineWith hs haddressable mul_one
    | div => exact entries_combineWith hs haddressable div_one
    | pow => exact entries_combineWith hs haddressable pow_one
    | add | sub | atan2 => exact hreal
  | negUnity r =>
    cases f with
    | mul =>
      exact entries_combineWith hs haddressable fun x h => mul_negOne x (isFinite_of_neg h)
    | div =>
      exact entries_combineWith hs haddressable fun x h => div_negOne x (isFinite_of_neg h)
    | pow => exact entries_combineWith hs haddressable pow_negOne
    | add | sub | atan2 => exact hreal
  | number n => cases f <;> exact hreal

theorem entries_onConstantTensor (f : BinaryFn) (hc : c.IsReal)
    (hs : join? c.shape a.shape = some s) (haddressable : s.isAddressable = true) :
    YieldsEntries (f.onConstantTensor c a) s
      (ComplexNumber.Entry (f = .mul ∧ c.isZero = true))
      ((a.entriesIn s).map fun y => f.real c.real y) := by
  have hs' : join? a.shape c.shape = some s := by rwa [Shape.join?_comm]
  have hlength := Tensor.length_entriesIn_of_stretchesTo (Shape.join?_eq_some hs').1
  have hreal : YieldsEntries (Value.realPart f.name c >>= fun x =>
      a.combineWith (fun y => f.real x y) c) s
        (ComplexNumber.Entry (f = .mul ∧ c.isZero = true))
        ((a.entriesIn s).map fun y => f.real c.real y) := by
    rw [realPart_of_isReal hc]
    exact entries_combineWith hs' haddressable fun y => beq_refl _
  unfold onConstantTensor
  rw [Tensor.joinShapes_eq_ok.mpr hs]
  cases c with
  | nan r => exact entries_symbol rfl hlength fun y _ => Or.inl (gives_nan _)
  | zero r =>
    cases f with
    | add => exact entries_combineWith hs' haddressable fun _ => zero_add
    | sub =>
      exact entries_combineWith hs' haddressable fun _ h => zero_sub (isFinite_of_neg h)
    | mul =>
      refine entries_symbol rfl hlength fun y _ => ?_
      cases hk : isFinite (Scalar.zero * y) with
      | true =>
        have hy := (isFinite_of_mul _ _ hk).2
        exact Or.inl (gives_of_beq (zero_mul hy))
      | false => exact Or.inr ⟨⟨rfl, rfl⟩, rfl, hk⟩
    | div =>
      by_cases hdivisor : a.isDivisor = true
      · have hdivides : ∀ y ∈ a.entriesIn s, Scalar.zero / y == Scalar.zero := by
          intro y hy
          have hentry := List.all_eq_true.mp hdivisor y (Tensor.mem_of_mem_entriesIn hy)
          simp only [Bool.and_eq_true, Bool.not_eq_true'] at hentry
          exact zero_div y hentry.2 hentry.1
        simp only [hdivisor, if_true]
        exact entries_symbol rfl hlength fun y hy =>
          Or.inl (gives_of_beq (hdivides y hy))
      · simp only [hdivisor]
        exact entries_combineWith hs' haddressable fun y => beq_refl _
    | pow | atan2 => exact hreal
  | unity r =>
    cases f with
    | mul => exact entries_combineWith hs' haddressable fun _ => one_mul
    | pow =>
      exact entries_symbol rfl hlength fun y _ => Or.inl (gives_of_beq (one_pow y))
    | add | sub | div | atan2 => exact hreal
  | negUnity r =>
    cases f with
    | mul =>
      exact entries_combineWith hs' haddressable fun _ h => negOne_mul (isFinite_of_neg h)
    | add | sub | div | pow | atan2 => exact hreal
  | number n => cases f <;> exact hreal

end BinaryFn

end FormulaCalculus
