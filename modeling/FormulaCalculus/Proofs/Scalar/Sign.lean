import FormulaCalculus.Proofs.Scalar.Double

/-!
Signs of machine numbers. Packing keeps the sign, a product and a quotient have the sign that their
operands give, and so no decimal numeral without a sign is read as a negative number or as the
undefined value, and no square is negative.
-/

namespace FormulaCalculus

/-- Number systems in which squares, numerals and the logarithm of ten are not negative. -/
class LawfulSigns (α : Type) [Scalar α] : Prop where
  mul_self : ∀ x : α, Scalar.lt (x * x) Scalar.zero = false
  ofDecimal : ∀ m k, Scalar.lt (Scalar.ofDecimal m k : α) Scalar.zero = false
  ln10 : Scalar.lt (Scalar.ln10 : α) Scalar.zero = false

open Float.Model (UnpackedFloat Format)
open Float.Model.UnpackedFloat (Sign packComponents)

namespace Double

/-- The sign of what is a number. -/
def sign? : UnpackedFloat → Option Sign
  | .notANumber => none
  | .infinity s | .zero s | .finite s _ _ _ => some s

theorem sign?_unpack_packComponents {spec : Format} {s : Sign} {e : BitVec spec.exponentBits}
    {m : BitVec spec.mantissaBitsWithoutImplicit} (h : e ≠ -1#_ ∨ m = 0#_) :
    sign? (UnpackedFloat.unpack spec (packComponents spec s e m)) = some s := by
  simp only [UnpackedFloat.unpack, UnpackedFloat.unpackMantissa_packComponents,
    UnpackedFloat.unpackExponent_packComponents, UnpackedFloat.unpackSign_packComponents,
    UnpackedFloat.Sign.ofBitVec_toBitVec]
  split_ifs with he hm
  · rfl
  · exact absurd he (h.resolve_right hm)
  · rfl
  · rfl
  · rfl

/-- What is packed is unpacked with the same sign, even if it is rounded to an infinite number. -/
theorem sign?_unpack_pack (u : UnpackedFloat) :
    sign? (UnpackedFloat.unpack .binary64 (u.pack .binary64)) = sign? u := by
  cases u with
  | notANumber =>
    change sign? (UnpackedFloat.unpack .binary64 (UnpackedFloat.packedNaN .binary64)) = _
    rw [UnpackedFloat.unpack_packedNaN]
  | infinity s => exact sign?_unpack_packComponents (Or.inr rfl)
  | zero s => exact sign?_unpack_packComponents (Or.inr rfl)
  | finite s m e hm =>
    simp only [UnpackedFloat.pack]
    split_ifs with hlarge hnormal
    · exact sign?_unpack_packComponents (Or.inr rfl)
    · refine sign?_unpack_packComponents (Or.inl fun h => hlarge ?_)
      -- the largest exponent is that of the infinite numbers
      have hnat := congrArg BitVec.toNat h
      simp only [BitVec.toNat_ofNat] at hnat
      have hmax : (-1#11 : BitVec 11).toNat = 2047 := rfl
      rw [hmax] at hnat
      omega
    · exact sign?_unpack_packComponents (Or.inl (by decide))

theorem sign?_roundWithAccuracy (spec : Format) (s : Sign) (m : Nat) (e : Int)
    (accuracy : UnpackedFloat.Accuracy) :
    sign? (UnpackedFloat.roundWithAccuracy spec s m e accuracy) = some s := by
  simp only [UnpackedFloat.roundWithAccuracy]
  split_ifs <;> rfl

theorem sign?_mul {spec : Format} {u : UnpackedFloat} (hu : sign? u = some .positive) {m : Nat}
    {e : Int} (hm : 0 < m) :
    sign? (u.mul spec (.finite .positive m e hm)) = some .positive := by
  cases u with
  | notANumber => nomatch hu
  | infinity s | zero s =>
    obtain rfl := Option.some.inj hu
    rfl
  | finite s n f hn =>
    obtain rfl := Option.some.inj hu
    exact sign?_roundWithAccuracy _ _ _ _ _

theorem sign?_mul_self (spec : Format) (u : UnpackedFloat) :
    u.mul spec u = .notANumber ∨ sign? (u.mul spec u) = some .positive := by
  have hself (s : Sign) : s * s = .positive := by cases s <;> rfl
  cases u with
  | notANumber => exact Or.inl rfl
  | infinity s | zero s => exact Or.inr (congrArg some (hself s))
  | finite s m e hm =>
    right
    rw [← hself s]
    exact sign?_roundWithAccuracy _ _ _ _ _

theorem sign?_div {spec : Format} {u : UnpackedFloat} (hu : sign? u = some .positive) {m : Nat}
    {e : Int} (hm : 0 < m) :
    sign? (u.div spec (.finite .positive m e hm)) = some .positive := by
  cases u with
  | notANumber => nomatch hu
  | infinity s | zero s =>
    obtain rfl := Option.some.inj hu
    rfl
  | finite s n f hn =>
    obtain rfl := Option.some.inj hu
    exact sign?_roundWithAccuracy _ _ _ _ _

theorem sign?_ofNat (spec : Format) (n : Nat) :
    sign? (UnpackedFloat.ofNat spec n) = some .positive := by
  simp only [UnpackedFloat.ofNat, UnpackedFloat.ofInt, UnpackedFloat.normalize]
  split
  · rename_i hneg
    rw [Int.compare_eq_lt] at hneg
    omega
  · rfl
  · exact sign?_roundWithAccuracy _ _ _ _ _

theorem sign?_ofScientific (spec : Format) (m : Nat) (e : Int) :
    sign? (UnpackedFloat.ofScientific spec m e) = some .positive := by
  unfold UnpackedFloat.ofScientific
  split_ifs
  · rfl
  · rfl
  · rfl
  · exact sign?_mul rfl _
  · exact sign?_div rfl _

/-- Whether a machine number is a number without a minus. -/
def IsUnsigned (x : Float) : Prop := sign? x.toModel.unpack = some .positive

/-- Whether a number is a power of ten with all digits. -/
def isPowerOfTen (e : Nat) : UnpackedFloat → Bool
  | .finite .positive m k _ =>
    m.log2 == 52 && m * 2 ^ k.toNat == 10 ^ e * 2 ^ (-k).toNat
  | _ => false

theorem exists_of_isPowerOfTen {e : Nat} {x : UnpackedFloat} (h : isPowerOfTen e x = true) :
    ∃ m k hm, x = .finite .positive m k hm ∧ m.log2 = 52 ∧
      m * 2 ^ k.toNat = 10 ^ e * 2 ^ (-k).toNat := by
  unfold isPowerOfTen at h
  split at h
  · rw [Bool.and_eq_true, beq_iff_eq, beq_iff_eq] at h
    exact ⟨_, _, _, rfl, h⟩
  · cases h

theorem exists_powerOfTen {e : Nat} (he : e < Float.exactlyRepresentablePowersOfTen.size) :
    ∃ m k hm, Float.exactlyRepresentablePowersOfTen[e].toModel.unpack =
      .finite .positive m k hm ∧ m.log2 = 52 ∧ m * 2 ^ k.toNat = 10 ^ e * 2 ^ (-k).toNat := by
  have hall : ∀ e (he : e < 23),
      isPowerOfTen e Float.exactlyRepresentablePowersOfTen[e].toModel.unpack = true := by
    decide +kernel
  exact exists_of_isPowerOfTen (hall e he)

theorem ofScientific_isUnsigned (m : Nat) (s : Bool) (e : Nat) :
    IsUnsigned (Float.ofScientific m s e) := by
  unfold Float.ofScientific
  -- small mantissas meet an exact power of ten, all others are rounded from a fraction
  by_cases hsmall : m < 2 ^ 53 ∧ e ≤ 22
  · have he : e < Float.exactlyRepresentablePowersOfTen.size := Nat.lt_succ_of_le hsmall.2
    obtain ⟨n, k, hn, hpower, -⟩ := exists_powerOfTen he
    have hwhole : sign? m.toUInt64.toFloat.toModel.unpack = some .positive :=
      (sign?_unpack_pack _).trans (sign?_ofNat _ _)
    rw [dif_pos hsmall]
    cases s with
    | true =>
      refine (sign?_unpack_pack _).trans ?_
      rw [hpower]
      exact sign?_div hwhole hn
    | false =>
      refine (sign?_unpack_pack _).trans ?_
      rw [hpower]
      exact sign?_mul hwhole hn
  · rw [dif_neg hsmall]
    exact (sign?_unpack_pack _).trans (sign?_ofScientific _ _ _)

theorem ofDecimal_isUnsigned (m : Nat) (k : Int) : IsUnsigned (Binary64.ofDecimal m k) := by
  simp only [Binary64.ofDecimal]
  split_ifs
  · exact (rfl : sign? (0 : Float).toModel.unpack = some .positive)
  · exact (rfl : sign? (1 / 0 : Float).toModel.unpack = some .positive)
  · exact ofScientific_isUnsigned _ _ _

theorem IsUnsigned.isNaN {x : Float} (h : IsUnsigned x) : x.isNaN = false := by
  change x.toModel.unpack.isNaN = false
  rw [IsUnsigned] at h
  cases hu : x.toModel.unpack with
  | notANumber =>
    rw [hu] at h
    nomatch h
  | _ => rfl

theorem IsUnsigned.not_lt_zero {x : Float} (h : IsUnsigned x) : decide (x < 0) = false := by
  have hzero : (0 : Float).toModel.unpack = .zero .positive := UnpackedFloat.unpack_packedZero
  have hlt : decide (x < 0) = x.toModel.unpack.lt (0 : Float).toModel.unpack := by
    rw [Bool.eq_iff_iff, decide_eq_true_iff]
    exact decide_eq_true_iff
  rw [hlt, hzero, UnpackedFloat.lt]
  rw [IsUnsigned] at h
  cases hu : x.toModel.unpack with
  | notANumber => rfl
  | infinity s | zero s | finite s m e hm =>
    rw [hu] at h
    obtain rfl := Option.some.inj h
    rfl

theorem IsUnsigned.beq_negOne {x : Float} (h : IsUnsigned x) : (x == -1) = false := by
  rw [Bool.eq_false_iff]
  intro hbeq
  change x.toModel.unpack.beq (-1 : Float).toModel.unpack = true at hbeq
  have hone : sign? (-1 : Float).toModel.unpack = some .negative := rfl
  rw [IsUnsigned] at h
  rcases ((UnpackedFloat.beq_iff_ne_notANumber_and_eq _ _).mp hbeq).2.2 with
    heq | ⟨-, heq⟩ | ⟨heq, -⟩
  · rw [heq, hone] at h
    nomatch h
  · have hzero :
        (match (-1 : Float).toModel.unpack with | .zero _ => true | _ => false) = false := by
      decide +kernel
    rw [heq] at hzero
    nomatch hzero
  · rw [heq] at h
    nomatch h

/-- A decimal numeral without a sign stands for a number that is not minus one. -/
theorem ofDecimal_plain (m : Nat) (k : Int) :
    Scalar.isNaN (Scalar.ofDecimal m k : Double) = false ∧
      ((Scalar.ofDecimal m k : Double) == -Scalar.one) = false := by
  have hunsigned := ofDecimal_isUnsigned m k
  have hdecimal : (Scalar.ofDecimal m k : Double) =
      number (Binary64.ofDecimal m k) hunsigned.isNaN := ofFloat_eq _
  have hone : (-Scalar.one : Double) = number (-1) (by decide +kernel) := by
    rw [show (Scalar.one : Double) = number 1 (by decide +kernel) from ofFloat_eq _, neg_number]
  rw [hdecimal, hone]
  exact ⟨rfl, hunsigned.beq_negOne⟩

/-- A result without a minus is not negative. -/
theorem ofFloat_not_lt_zero {x : Float} (h : x.isNaN = true ∨ IsUnsigned x) :
    Scalar.lt (ofFloat x) Scalar.zero = false := by
  rcases h with h | h
  · rw [show ofFloat x = nan true from dif_pos h]
    rfl
  · rw [ofFloat_eq h.isNaN]
    exact h.not_lt_zero

end Double

instance : LawfulSigns Double where
  mul_self x := by
    cases x with
    | nan s => rfl
    | number x h =>
      apply Double.ofFloat_not_lt_zero
      -- the product of machine numbers is packed
      have hpacked : (x * x).toModel.unpack = UnpackedFloat.unpack .binary64
          ((x.toModel.unpack.mul .binary64 x.toModel.unpack).pack .binary64) := rfl
      rcases Double.sign?_mul_self .binary64 x.toModel.unpack with hnan | hsign
      · left
        change (x * x).toModel.unpack.isNaN = true
        rw [hpacked, hnan]
        exact congrArg UnpackedFloat.isNaN UnpackedFloat.unpack_packedNaN
      · right
        rw [Double.IsUnsigned, hpacked, Double.sign?_unpack_pack, hsign]
  ofDecimal m k := Double.ofFloat_not_lt_zero (Or.inr (Double.ofDecimal_isUnsigned m k))
  ln10 := by decide +kernel

end FormulaCalculus
