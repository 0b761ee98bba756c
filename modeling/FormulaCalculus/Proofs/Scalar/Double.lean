import Mathlib
import FormulaCalculus.Proofs.Algebra.WellFormed
import FormulaCalculus.Scalar.Double

/-!
The sign laws hold of machine numbers. A change of sign changes the sign bit alone, and no
comparison for equality sees the sign of a zero.
-/

namespace FormulaCalculus

open Float.Model (UnpackedFloat Format)
open Float.Model.UnpackedFloat (Sign packComponents)

namespace Double

theorem unpack_packComponents_neg {spec : Format} (s : Sign) (e : BitVec spec.exponentBits)
    (m : BitVec spec.mantissaBitsWithoutImplicit) :
    UnpackedFloat.unpack spec (packComponents spec (-s) e m) =
      (UnpackedFloat.unpack spec (packComponents spec s e m)).neg := by
  simp only [UnpackedFloat.unpack, UnpackedFloat.unpackMantissa_packComponents,
    UnpackedFloat.unpackExponent_packComponents, UnpackedFloat.unpackSign_packComponents,
    UnpackedFloat.Sign.ofBitVec_toBitVec]
  split_ifs <;> rfl

/-- The opposite of a number is packed with the same exponent and mantissa. -/
theorem exists_packComponents (spec : Format) {u : UnpackedFloat} (hu : u ≠ .notANumber) :
    ∃ s e m, u.pack spec = packComponents spec s e m ∧
      u.neg.pack spec = packComponents spec (-s) e m := by
  cases u with
  | notANumber => exact absurd rfl hu
  | infinity s => exact ⟨s, _, _, rfl, rfl⟩
  | zero s => exact ⟨s, _, _, rfl, rfl⟩
  | finite s m e hm =>
    refine ⟨s, ?_⟩
    simp only [UnpackedFloat.neg, UnpackedFloat.pack]
    split_ifs
    · exact ⟨_, _, rfl, rfl⟩
    · exact ⟨_, _, rfl, rfl⟩
    · exact ⟨_, _, rfl, rfl⟩

theorem unpack_neg (x : Float) : (-x).toModel.unpack = x.toModel.unpack.neg := by
  have hpack : x.toModel.unpack.pack .binary64 = x.toModel.toBits.toBitVec :=
    UnpackedFloat.pack_unpack_of_valid x.toModel.valid
  have hbits : (-x).toModel.unpack =
      UnpackedFloat.unpack .binary64 (x.toModel.unpack.neg.pack .binary64) := rfl
  by_cases hnan : x.toModel.unpack = .notANumber
  · rw [hbits, hnan]
    exact UnpackedFloat.unpack_packedNaN
  · obtain ⟨s, e, m, hu, hneg⟩ := exists_packComponents .binary64 hnan
    have hself : UnpackedFloat.unpack .binary64 (packComponents .binary64 s e m) =
        x.toModel.unpack := by
      rw [← hu, hpack]
      rfl
    rw [hbits, hneg, unpack_packComponents_neg, hself]

theorem sign_neg_neg (s : Sign) : -(-s) = s := by
  cases s <;> rfl

theorem eq_of_unpack {x y : Float} (h : x.toModel.unpack = y.toModel.unpack) : x = y := by
  have hbits := (UnpackedFloat.unpack_inj_of_valid x.toModel.valid y.toModel.valid).mp h
  exact Float.toBits_inj.mp (UInt64.toBitVec_inj.mp hbits)

theorem float_neg_neg (x : Float) : -(-x) = x := by
  apply eq_of_unpack
  rw [unpack_neg, unpack_neg]
  cases x.toModel.unpack <;> simp only [UnpackedFloat.neg, sign_neg_neg]

theorem float_isNaN_neg (x : Float) : (-x).isNaN = x.isNaN := by
  change (-x).toModel.unpack.isNaN = x.toModel.unpack.isNaN
  rw [unpack_neg]
  cases x.toModel.unpack <;> rfl

theorem unpacked_neg_beq (u v : UnpackedFloat) : u.neg.beq v = u.beq v.neg := by
  have hnegative : -Sign.negative = Sign.positive := rfl
  have hpositive : -Sign.positive = Sign.negative := rfl
  rw [Bool.eq_iff_iff, UnpackedFloat.beq_iff_ne_notANumber_and_eq,
    UnpackedFloat.beq_iff_ne_notANumber_and_eq]
  cases u with
  | notANumber => simp [UnpackedFloat.neg]
  | infinity s | zero s | finite s m e hm =>
    cases v with
    | notANumber => simp [UnpackedFloat.neg]
    | infinity t | zero t | finite t m' e' hm' =>
      cases s <;> cases t <;> simp [UnpackedFloat.neg, hnegative, hpositive]

theorem float_neg_beq (x y : Float) : (-x == y) = (x == -y) := by
  change (-x).toModel.unpack.beq y.toModel.unpack = x.toModel.unpack.beq (-y).toModel.unpack
  rw [unpack_neg, unpack_neg, unpacked_neg_beq]

/-- The two zeros compare equal. -/
theorem float_beq_neg_zero (x : Float) : (x == -(0 : Float)) = (x == 0) := by
  have hzero : (0 : Float).toModel.unpack = .zero .positive := UnpackedFloat.unpack_packedZero
  have hnegZero : (-(0 : Float)).toModel.unpack = .zero .negative := by
    rw [unpack_neg, hzero]
    rfl
  change x.toModel.unpack.beq (-(0 : Float)).toModel.unpack =
    x.toModel.unpack.beq (0 : Float).toModel.unpack
  rw [hnegZero, hzero, Bool.eq_iff_iff, UnpackedFloat.beq_iff_ne_notANumber_and_eq,
    UnpackedFloat.beq_iff_ne_notANumber_and_eq]
  cases x.toModel.unpack with
  | zero s => cases s <;> simp
  | _ => simp

theorem ofFloat_eq {x : Float} (h : x.isNaN = false) : ofFloat x = number x h :=
  dif_neg (ne_true_of_eq_false h)

theorem neg_number {x : Float} (h : x.isNaN = false) :
    -(number x h) = number (-x) ((float_isNaN_neg x).trans h) :=
  ofFloat_eq _

end Double

open Double in
instance : LawfulScalar Double where
  neg_neg x := by
    cases x with
    | nan s => exact congrArg nan (Bool.not_not s)
    | number x h =>
      rw [neg_number, neg_number]
      simp only [float_neg_neg]
  neg_beq x y := by
    cases x with
    | nan s => rfl
    | number x h =>
      cases y with
      | nan s =>
        rw [neg_number]
        rfl
      | number y h' =>
        rw [neg_number, neg_number]
        exact float_neg_beq x y
  beq_neg_zero x := by
    have hzero : (Scalar.zero : Double) = number 0 (by decide +kernel) := ofFloat_eq _
    cases x with
    | nan s => rfl
    | number x h =>
      rw [hzero, neg_number]
      exact float_beq_neg_zero x
  zero_beq_zero := by decide +kernel
  isNaN_neg x := by
    cases x with
    | nan s => rfl
    | number x h =>
      rw [neg_number]
      rfl
  half_plain := ⟨by decide +kernel, by decide +kernel, by decide +kernel, by decide +kernel⟩
  two_plain := ⟨by decide +kernel, by decide +kernel, by decide +kernel, by decide +kernel⟩
  ln10_plain := ⟨by decide +kernel, by decide +kernel, by decide +kernel, by decide +kernel⟩

end FormulaCalculus
