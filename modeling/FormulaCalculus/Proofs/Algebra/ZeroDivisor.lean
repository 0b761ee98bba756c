import FormulaCalculus.Proofs.Filling.Entries
import FormulaCalculus.Proofs.Scalar.Double

/-!
Division by a constant whose value is exactly zero. A constant divided by it is the undefined
symbol, however the zero is written, and so is a tensor divided by the symbol for zero. A number
with value zero is no short cut for a tensor, which is divided by it entry by entry.
-/

namespace FormulaCalculus

open Shape (join?)

namespace BinaryFn

variable {α : Type} [Scalar α] {a : Tensor α} {c d : Constant α} {n : Number α} {v : Value α}
  {u : Shape}

theorem constant_div_zeroValue (hd : d.hasZeroValue = true) (hu : join? c.shape d.shape = some u) :
    div.onValues (.symbol c) (.symbol d) = .ok (.symbol (.nan u)) := by
  have hdiv : c.divIn u d = .nan u := if_pos hd
  rw [onValues, onConstants, Tensor.joinShapes_eq_ok.mpr hu, ← hdiv]
  rfl

theorem tensor_div_zero {s : Shape} (hu : join? a.shape s = some u) :
    div.onValues (.tensor a) (.symbol (.zero s)) = .ok (.symbol (.nan u)) := by
  have hshape : join? a.shape (Constant.zero s : Constant α).shape = some u := hu
  rw [onValues, onTensorConstant, Tensor.joinShapes_eq_ok.mpr hshape]
  rfl

theorem tensor_div_zeroNumber (hn : n.value.isZero = true) (hu : join? a.shape n.shape = some u) :
    div.onValues (.tensor a) (.symbol (.number n)) =
      a.combineWith (fun x => x / n.value.re) (.number n) := by
  have hshape : join? a.shape (Constant.number n).shape = some u := hu
  have hreal : (Constant.number n).IsReal := (Bool.and_eq_true_iff.mp hn).2
  have hpart : Value.realPart div.name (.number n) = .ok n.value.re :=
    realPart_of_isReal hreal div.name
  rw [onValues, onTensorConstant, Tensor.joinShapes_eq_ok.mpr hshape]
  change (Value.realPart div.name (.number n) >>= fun y =>
    a.combineWith (fun x => x / y) (.number n)) = _
  rw [hpart]
  rfl

/-- A quotient whose divisor is exactly zero is the undefined symbol if and only if the dividend is
a constant or the divisor is the symbol for zero. In the remaining case, a tensor and a number, the
entries are divided by the number's real part. -/
theorem div_zeroValue (hd : d.hasZeroValue = true) (hu : join? v.shape d.shape = some u) :
    (div.onValues v (.symbol d) = .ok (.symbol (.nan u)) ↔
      (∃ c, v = .symbol c) ∨ d.isZero = true) ∧
    ∀ a n, v = .tensor a → d = .number n →
      div.onValues v (.symbol d) = a.combineWith (fun x => x / n.value.re) d := by
  have hentries (a : Tensor α) (n : Number α) (hv : v = .tensor a) (hn : d = .number n) :
      div.onValues v (.symbol d) = a.combineWith (fun x => x / n.value.re) d := by
    subst hv hn
    exact tensor_div_zeroNumber hd hu
  refine ⟨⟨fun h => ?_, ?_⟩, hentries⟩
  · cases v with
    | symbol c => exact Or.inl ⟨c, rfl⟩
    | tensor a =>
      right
      cases d with
      | zero s => rfl
      | number n =>
        -- what is divided entry by entry is a tensor
        rw [hentries a n rfl rfl] at h
        obtain ⟨r, -, h⟩ := exists_of_bind_eq_ok h
        nomatch h
      | _ => nomatch hd
  · rintro (⟨c, rfl⟩ | hzero)
    · exact constant_div_zeroValue hd hu
    · cases v with
      | symbol c => exact constant_div_zeroValue hd hu
      | tensor a =>
        cases d with
        | zero s => exact tensor_div_zero hu
        | _ => nomatch hzero

/-- Two, in a shape with three places, divided by a zero that is flagged imaginary. -/
theorem div_zeroValue_flagged :
    let v : Value Double := .symbol (.number ⟨.ofReal Scalar.two, false, [3]⟩)
    let d : Constant Double := .number ⟨.zero, true, [2, 1]⟩
    d.hasZeroValue = true ∧ join? v.shape d.shape = some [2, 3] ∧
      div.onValues v (.symbol d) = .ok (.symbol (.nan [2, 3])) := by
  intro v d
  have hd : d.hasZeroValue = true := by
    decide +kernel
  have hu : join? v.shape d.shape = some [2, 3] := rfl
  exact ⟨hd, hu, (div_zeroValue hd hu).1.mpr (Or.inl ⟨_, rfl⟩)⟩

/-- A tensor with the entry one divided by a zero that is flagged imaginary: the quotient is
infinite, and not the undefined symbol. -/
theorem tensor_div_flagged_zero :
    let v : Value Double := .tensor (Tensor.replicate [1] Scalar.one)
    let d : Constant Double := .number ⟨.zero, true, [1]⟩
    d.hasZeroValue = true ∧ join? v.shape d.shape = some [1] ∧
      (∃ r, div.onValues v (.symbol d) = .ok (.tensor r) ∧
        (r.data.all fun x => x == Scalar.infinity) = true) ∧
      div.onValues v (.symbol d) ≠ .ok (.symbol (.nan [1])) := by
  intro v d
  have hd : d.hasZeroValue = true := by
    decide +kernel
  have hinfinite : (Scalar.one / Scalar.zero : Double) == Scalar.infinity := by
    decide +kernel
  have hquotient : div.onValues v (.symbol d) =
      .ok (.tensor (Tensor.replicate [1] (Scalar.one / Scalar.zero))) :=
    tensor_div_zeroNumber (n := ⟨.zero, true, [1]⟩) hd rfl
  refine ⟨hd, rfl, ⟨_, hquotient, ?_⟩, ?_⟩
  · exact Bool.and_eq_true_iff.mpr ⟨hinfinite, rfl⟩
  · rw [hquotient]
    intro h
    nomatch h

end BinaryFn

end FormulaCalculus
