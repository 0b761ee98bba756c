import FormulaCalculus.Proofs.Algebra.Symbols
import FormulaCalculus.Proofs.Alike.Values
import FormulaCalculus.Proofs.Filling.Values

/-!
Values compared across shapes. A value matches another one if it stretches to the other one's shape
and has there the other one's entries, which compare equal as complex numbers or are undefined in
the same parts. What stretches to a value matches it, and so does a constant with the same number.
-/

namespace FormulaCalculus

open LawfulRounding
open Scalar (isNaN)
open Shape (volume)

variable {α : Type} [Scalar α]

namespace Value

/-- The entries of a value as complex numbers; a symbol fills the tensor of its shape. -/
def numbers : Value α → Tensor (ComplexNumber α)
  | tensor a => a.map .ofReal
  | symbol c => Tensor.replicate c.shape c.value

/-- Whether a value, stretched to the shape of another one, has the other one's entries, up to the
signs of zeros and of undefined parts. -/
structure Matches (v w : Value α) : Prop where
  shape : v.shape.StretchesTo w.shape
  entries : List.Forall₂ ComplexNumber.Alike (v.numbers.entriesIn w.shape) w.entries

theorem shape_numbers (v : Value α) : v.numbers.shape = v.shape := by
  cases v <;> rfl

theorem data_numbers (v : Value α) : v.numbers.data = v.entries := by
  cases v <;> rfl

theorem length_entries (v : Value α) : v.entries.length = volume v.shape := by
  rw [← data_numbers, ← shape_numbers]
  exact v.numbers.length_data

theorem length_entriesIn_numbers {v : Value α} {s : Shape} (h : v.shape.StretchesTo s) :
    (v.numbers.entriesIn s).length = volume s := by
  apply Tensor.length_entriesIn_of_stretchesTo
  rwa [shape_numbers]

end Value

variable [LawfulRounding α]

theorem Scalar.Alike.trans {x y z : α} (hxy : Alike x y) (hyz : Alike y z) : Alike x z := by
  rcases hxy with hxy | ⟨hx, hy⟩
  · exact Or.inl (beq_trans _ _ _ hxy (hyz.beq (isNaN_of_beq_right hxy)))
  · exact Or.inr ⟨hx, hyz.isNaN_eq.symm.trans hy⟩

namespace ComplexNumber.Alike

variable {z w u : ComplexNumber α}

theorem symm (h : z.Alike w) : w.Alike z := ⟨h.re.symm, h.im.symm⟩

theorem trans (hz : z.Alike w) (hw : w.Alike u) : z.Alike u :=
  ⟨hz.re.trans hw.re, hz.im.trans hw.im⟩

end ComplexNumber.Alike

/-- A number that becomes a symbol keeps its value. -/
theorem Number.value_ofNumber_alike (n : Number α) :
    (Constant.ofNumber n).value.Alike n.value := by
  have himaginary (hreal : n.value.isReal = true) : Scalar.Alike Scalar.zero n.value.im :=
    Or.inl (beq_symm _ _ hreal)
  unfold Constant.ofNumber
  split_ifs with hflag hzero hone hnegOne hnan
  · exact .refl _
  all_goals
    obtain ⟨-, hreal⟩ : n.imaginary = false ∧ n.value.isReal = true := by
      simpa using hflag
  · exact ⟨Or.inl (beq_symm _ _ hzero), himaginary hreal⟩
  · exact ⟨Or.inl (beq_symm _ _ hone), himaginary hreal⟩
  · exact ⟨Or.inl (beq_symm _ _ hnegOne), himaginary hreal⟩
  · exact ⟨Or.inr ⟨isNaN_nan, hnan⟩, himaginary hreal⟩
  · exact .refl _

omit [LawfulRounding α] in
theorem Number.shape_ofNumber (n : Number α) : (Constant.ofNumber n).shape = n.shape := by
  unfold Constant.ofNumber
  split_ifs <;> rfl

/-- The opposite of a constant stands for the opposite number. -/
theorem UnaryFn.value_neg_alike (c : Constant α) : (neg.onConstant c).value.Alike (-c.value) := by
  have hzero : Scalar.Alike (Scalar.zero : α) (-Scalar.zero) :=
    Or.inl (beq_symm _ _ neg_zero_beq)
  cases c with
  | zero s => exact ⟨hzero, hzero⟩
  | unity s => exact ⟨.refl _, hzero⟩
  | negUnity s =>
    refine ⟨?_, hzero⟩
    change Scalar.Alike Scalar.one (- -Scalar.one)
    rw [LawfulScalar.neg_neg]
    exact .refl _
  | nan s => exact ⟨Or.inr ⟨isNaN_nan, (LawfulScalar.isNaN_neg _).trans isNaN_nan⟩, hzero⟩
  | number n => exact Number.value_ofNumber_alike { n with value := -n.value }

namespace Value

variable {u v w : Value α} {c d : Constant α}

theorem Matches.refl (v : Value α) : v.Matches v := by
  refine ⟨.refl v.shape, ?_⟩
  rw [← shape_numbers, Tensor.entriesIn_self, data_numbers]
  exact List.forall₂_same.mpr fun z _ => .refl z

omit [LawfulRounding α] in
theorem matches_symbol (hshape : c.shape.StretchesTo d.shape) (hvalue : c.value.Alike d.value) :
    (symbol c).Matches (symbol d) := by
  refine ⟨hshape, ?_⟩
  change List.Forall₂ _ ((Tensor.replicate c.shape c.value).entriesIn d.shape) _
  rw [Tensor.entriesIn_replicate hshape]
  exact forall₂_replicate hvalue _

theorem matches_of_stretchesTo (h : v.StretchesTo w) : v.Matches w := by
  cases h with
  | @tensor a b h =>
    refine ⟨h.shape, ?_⟩
    change List.Forall₂ ComplexNumber.Alike ((a.map ComplexNumber.ofReal).entriesIn b.shape)
      (b.data.map ComplexNumber.ofReal)
    rw [Tensor.entriesIn_map _ h.shape, ← h.data]
    exact List.forall₂_same.mpr fun z _ => .refl z
  | @symbol c d h =>
    apply matches_symbol h.shape
    rw [h.eq_withShape, Constant.value_withShape]
    exact .refl _

/-- The opposite of the opposite, also where a constant becomes a symbol on the way. -/
theorem matches_neg_neg (v : Value α) :
    v.Matches (UnaryFn.neg.onValue (UnaryFn.neg.onValue v)) := by
  cases v with
  | tensor a =>
    rw [UnaryFn.onValue_neg_neg (v := tensor a) trivial]
    exact .refl _
  | symbol c =>
    apply matches_symbol
    · rw [UnaryFn.shape_onConstant, UnaryFn.shape_onConstant]
      exact .refl _
    · have hneg := (UnaryFn.value_neg_alike c).neg
      rw [ComplexNumber.neg_neg] at hneg
      exact ((UnaryFn.value_neg_alike (UnaryFn.neg.onConstant c)).trans hneg).symm

theorem Matches.trans (huv : u.Matches v) (hvw : v.Matches w) : u.Matches w := by
  refine ⟨huv.shape.trans hvw.shape, ?_⟩
  have huv' : u.numbers.shape.StretchesTo v.shape := by
    rw [shape_numbers]
    exact huv.shape
  -- on the way from the first shape to the last one the entries pass through the second
  let b : Tensor (ComplexNumber α) :=
    ⟨v.shape, u.numbers.entriesIn v.shape, Tensor.length_entriesIn_of_stretchesTo huv'⟩
  have hrelated : Tensor.Related ComplexNumber.Alike b v.numbers := by
    refine ⟨(shape_numbers v).symm, ?_⟩
    rw [data_numbers]
    exact huv.entries
  have hpass : b.entriesIn w.shape = u.numbers.entriesIn w.shape :=
    Tensor.entriesIn_trans huv' hvw.shape rfl
  have hstretched := hrelated.entriesIn hvw.shape
  rw [hpass] at hstretched
  have hlast : List.Forall₂ (fun z y : ComplexNumber α => y.Alike z) w.entries
      (v.numbers.entriesIn w.shape) := hvw.entries.flip
  exact forall₂_of_common hstretched hlast fun x y z hxz hzy => hxz.trans hzy

end Value

end FormulaCalculus
