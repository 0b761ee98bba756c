import FormulaCalculus.Proofs.Scalar.Nearest
import FormulaCalculus.Proofs.Scalar.Sign

/-!
Decimals that are read as machine numbers. Whether the digits and the power of ten are exact, or a
fraction is rounded, a decimal is read as the number in whose interval it lies.
-/

namespace FormulaCalculus

open Float.Model (UnpackedFloat Format totalExponent)
open Float.Model.UnpackedFloat (Sign accuracyOfFraction)

namespace Nearest

variable {m m₁ m₂ : Nat} {e e₁ e₂ : Int}

/-! ### Products and quotients -/

theorem log2_le_log2_div (h₁ : 0 < m₁) (h₂ : 0 < m₂) (j : Nat) :
    m₁.log2 + j ≤ (m₁ * 2 ^ j / m₂).log2 + m₂.log2 + 1 := by
  by_cases hshort : m₁.log2 + j < m₂.log2 + 1
  · omega
  obtain ⟨t, ht⟩ : ∃ t, m₁.log2 + j = t + (m₂.log2 + 1) :=
    ⟨_, (Nat.sub_add_cancel (not_lt.mp hshort)).symm⟩
  have hquotient : 2 ^ t ≤ m₁ * 2 ^ j / m₂ := by
    rw [Nat.le_div_iff_mul_le h₂]
    calc 2 ^ t * m₂ ≤ 2 ^ t * 2 ^ (m₂.log2 + 1) := Nat.mul_le_mul_left _ Nat.lt_log2_self.le
      _ = 2 ^ m₁.log2 * 2 ^ j := by rw [← Nat.pow_add, ← Nat.pow_add, ht]
      _ ≤ m₁ * 2 ^ j := Nat.mul_le_mul_right _ (Nat.log2_self_le h₁.ne')
  have hne : m₁ * 2 ^ j / m₂ ≠ 0 := ((Nat.two_pow_pos t).trans_le hquotient).ne'
  have hle := (Nat.le_log2 hne).mpr hquotient
  omega

theorem mul_eq {s₁ s₂ : Sign} (h₁ : 0 < m₁) (h₂ : 0 < m₂) (hlong : 52 ≤ (m₁ * m₂).log2) (hm : 0 < m)
    (hcanonical : Format.binary64.targetExponent (totalExponent m e) = e)
    (hx : (Binary64.interval m e).Holds (m₁ * 2 ^ e₁ * (m₂ * 2 ^ e₂))) :
    UnpackedFloat.mul .binary64 (.finite s₁ m₁ e₁ h₁) (.finite s₂ m₂ e₂ h₂) =
      .finite (s₁ * s₂) m e hm := by
  have hE : e₁ + e₂ ≤ Format.binary64.targetExponent (totalExponent (m₁ * m₂ / 1) (e₁ + e₂)) := by
    rw [Double.targetExponent_eq, totalExponent, Nat.div_one]
    omega
  have hvalue : (m₁ * 2 ^ e₁ * (m₂ * 2 ^ e₂) : ℚ) =
      (m₁ * m₂ : Nat) / (1 : Nat) * 2 ^ (e₁ + e₂) := by
    rw [zpow_add₀ (by norm_num)]
    push_cast
    ring
  rw [hvalue] at hx
  have hround := roundWithAccuracy_eq (s₁ * s₂) Nat.one_pos hm hcanonical hE hx
  rw [Nat.div_one, Nat.mod_one] at hround
  exact hround

theorem div_eq {s₁ s₂ : Sign} (h₁ : 0 < m₁) (h₂ : 0 < m₂) (hm : 0 < m)
    (hcanonical : Format.binary64.targetExponent (totalExponent m e) = e)
    (hx : (Binary64.interval m e).Holds (m₁ * 2 ^ e₁ / (m₂ * 2 ^ e₂))) :
    UnpackedFloat.div .binary64 (.finite s₁ m₁ e₁ h₁) (.finite s₂ m₂ e₂ h₂) =
      .finite (s₁ / s₂) m e hm := by
  -- the dividend is shifted until the quotient has all digits, unless it has them already
  obtain ⟨E, hEdef⟩ : ∃ E, E = min (e₁ - e₂) (Format.binary64.targetExponent
    (totalExponent m₁ e₁ - totalExponent m₂ e₂)) := ⟨_, rfl⟩
  obtain ⟨j, hj⟩ : ∃ j : Nat, j = (e₁ - e₂ - E).toNat := ⟨_, rfl⟩
  have hexponent : e₁ - e₂ = E + j := by omega
  -- the shift leaves as many digits as are kept
  have hlog := log2_le_log2_div h₁ h₂ j
  have hE : E ≤ Format.binary64.targetExponent (totalExponent (m₁ * 2 ^ j / m₂) E) := by
    rw [Double.targetExponent_eq, totalExponent, totalExponent] at hEdef
    rw [Double.targetExponent_eq, totalExponent]
    omega
  have hvalue : (m₁ * 2 ^ e₁ / (m₂ * 2 ^ e₂) : ℚ) = (m₁ * 2 ^ j : Nat) / m₂ * 2 ^ E := by
    have hsplit : (2 : ℚ) ^ e₁ = 2 ^ E * 2 ^ j * 2 ^ e₂ := by
      rw [← zpow_natCast, ← zpow_add₀ (by norm_num), ← zpow_add₀ (by norm_num)]
      congr 1
      omega
    have h₂' : (m₂ : ℚ) ≠ 0 := by exact_mod_cast h₂.ne'
    rw [hsplit]
    push_cast
    field_simp
  rw [hvalue] at hx
  have hround := roundWithAccuracy_eq (s₁ / s₂) h₂ hm hcanonical hE hx
  have hcore : UnpackedFloat.divCore .binary64 m₁ e₁ m₂ e₂ =
      (m₁ * 2 ^ j / m₂, E, accuracyOfFraction (m₁ * 2 ^ j % m₂) m₂) := by
    unfold UnpackedFloat.divCore
    dsimp only
    rw [← hEdef, ← hj, Nat.shiftLeft_eq]
  rw [UnpackedFloat.div, hcore]
  exact hround

/-! ### Decimals -/

/-- What is near to a number is not zero. -/
theorem pos_of_holds {x : ℚ} (hm : 0 < m) (hx : (Binary64.interval m e).Holds x) : 0 < x := by
  refine lt_of_lt_of_le ?_ hx.lower
  have hlower : 0 < (Binary64.interval m e).lower := by
    simp only [Binary64.interval]
    split_ifs <;> omega
  have hlower' : (0 : ℚ) < (Binary64.interval m e).lower := by exact_mod_cast hlower
  positivity

/-- A decimal of moderate exponent is rounded to the number in whose interval it lies. -/
theorem ofScientific_eq {d : Nat} {k : Int} (hd : 0 < d) (hupper : k ≤ 2048)
    (hlower : -(2048 + (d.log2 : Int)) ≤ k) (hm : 0 < m)
    (hcanonical : Format.binary64.targetExponent (totalExponent m e) = e)
    (hx : (Binary64.interval m e).Holds (d * 10 ^ k)) :
    UnpackedFloat.ofScientific .binary64 d k = .finite .positive m e hm := by
  have hbits : (2 : Int) ^ Format.binary64.exponentBits = 2048 := rfl
  unfold UnpackedFloat.ofScientific
  rw [dif_neg hd.ne', hbits, if_neg (not_lt.mpr hupper), if_neg (not_lt.mpr hlower)]
  have hmantissa : Format.binary64.mantissaBits = 53 := rfl
  split_ifs with hsign
  -- the digits are shifted first, so the product is long enough for its rest to be exact
  · have hpow : (10 : ℚ) ^ k = 10 ^ k.toNat := by
      rw [← zpow_natCast, Int.toNat_of_nonneg hsign]
    refine mul_eq _ _ ?_ hm hcanonical ?_
    · have hone : 1 ≤ d * 10 ^ k.toNat := Nat.mul_pos hd (Nat.pow_pos (by decide))
      have hlong : 2 ^ 53 ≤ (d <<< Format.binary64.mantissaBits) * 10 ^ k.toNat := by
        rw [hmantissa, Nat.shiftLeft_eq, Nat.mul_right_comm]
        exact Nat.le_mul_of_pos_left _ hone
      have hlog := log2_le_log2 hlong
      rw [Nat.log2_two_pow] at hlog
      omega
    · rw [hmantissa, Nat.shiftLeft_eq]
      convert hx using 1
      rw [hpow, zpow_neg]
      push_cast
      field_simp
  · have hpow : (10 : ℚ) ^ k = (10 ^ (-k).toNat)⁻¹ := by
      rw [← zpow_natCast, Int.toNat_of_nonneg (by omega), zpow_neg, inv_inv]
    refine div_eq _ _ hm hcanonical ?_
    convert hx using 1
    rw [hpow]
    push_cast
    field_simp

/-! ### Machine numbers -/

/-- What is stored with all digits is unpacked as it was packed. -/
theorem repack_eq (s : Sign) (hm : 0 < m) (hlog : m.log2 = 52) (hleast : -1074 ≤ e)
    (hgreatest : e ≤ 971) : Double.repack (.finite s m e hm) = .finite s m e hm := by
  obtain ⟨b, hb⟩ : ∃ b : Nat, e = (b : Int) - 1075 := ⟨(e + 1075).toNat, by omega⟩
  have hbias : (Format.binary64.exponentBias : Int) = 1023 := rfl
  have hbits : 2 ^ Format.binary64.exponentBits = 2048 := rfl
  have hwidth : Format.binary64.mantissaBits = 53 := rfl
  have hpack : UnpackedFloat.pack .binary64 (.finite s m e hm) =
      UnpackedFloat.packComponents .binary64 s (BitVec.ofNat _ b) (BitVec.ofNat _ m) := by
    have hbiased : (e + Format.binary64.exponentBias +
        Format.binary64.mantissaBitsWithoutImplicit).toNat = b := by
      rw [hbias, hb]
      change ((b : Int) - 1075 + 1023 + ((52 : Nat) : Int)).toNat = b
      omega
    simp only [UnpackedFloat.pack]
    rw [hbiased, if_neg (by rw [hbits]; omega), if_pos (by rw [hlog, hwidth])]
  have hnat : (BitVec.ofNat 11 b).toNat = b := by
    rw [BitVec.toNat_ofNat, Nat.mod_eq_of_lt (by omega)]
  have hmantissa : (1#1 ++ BitVec.ofNat 52 m).toNat = m := by
    obtain ⟨hle, hlt⟩ := (Nat.log2_eq_iff hm.ne').mp hlog
    rw [BitVec.toNat_append, ← Nat.shiftLeft_add_eq_or_of_lt (BitVec.isLt _), BitVec.toNat_ofNat]
    change 2 ^ 52 + m % 2 ^ 52 = m
    omega
  rw [Double.repack, hpack]
  simp only [UnpackedFloat.unpack, UnpackedFloat.unpackMantissa_packComponents,
    UnpackedFloat.unpackExponent_packComponents, UnpackedFloat.unpackSign_packComponents,
    UnpackedFloat.Sign.ofBitVec_toBitVec]
  rw [if_neg, if_neg]
  · simp only [UnpackedFloat.finite.injEq, true_and]
    refine ⟨hmantissa, ?_⟩
    change ((BitVec.ofNat 11 b).toNat : Int) - ((1023 : Nat) + (52 : Nat)) = e
    omega
  · intro h
    have hzero := congrArg BitVec.toNat h
    change (BitVec.ofNat 11 b).toNat = 0 at hzero
    omega
  · intro h
    have hmax := congrArg BitVec.toNat h
    change (BitVec.ofNat 11 b).toNat = 2047 at hmax
    omega

/-- Whole numbers that fit into the digits are stored exactly. -/
theorem unpack_toFloat {d : Nat} (hd : 0 < d) (hsmall : d < 2 ^ 53) :
    ∃ n k hn, d.toUInt64.toFloat.toModel.unpack = .finite .positive n k hn ∧ n.log2 = 52 ∧
      (n * 2 ^ k : ℚ) = d := by
  have hnat : d.toUInt64.toNat = d := by
    rw [Nat.toUInt64_eq, UInt64.toNat_ofNat', Nat.mod_eq_of_lt (by omega)]
  have hlog : d.log2 ≤ 52 := by
    have := (Nat.log2_lt hd.ne').mpr hsmall
    omega
  obtain ⟨j, hj⟩ : ∃ j, d.log2 + j = 52 := ⟨52 - d.log2, by omega⟩
  have hn : 0 < d * 2 ^ j := Nat.mul_pos hd (Nat.two_pow_pos j)
  have hlong : (d * 2 ^ j).log2 = 52 := by rw [Double.log2_mul_two_pow hd.ne', hj]
  have hround : UnpackedFloat.ofNat .binary64 d = .finite .positive (d * 2 ^ j) (-j) hn := by
    have hcompare : compare (d : Int) 0 = .gt := Int.compare_eq_gt.mpr (by omega)
    have htarget : Format.binary64.targetExponent (totalExponent d 0) = -j := by
      rw [Double.targetExponent_eq, totalExponent]
      omega
    have hcanonical : Format.binary64.targetExponent (totalExponent (d * 2 ^ j) (-j)) = -j := by
      rw [canonical_iff]
      omega
    have hexact := Double.roundWithAccuracy_exact hn .positive 0 hcanonical
    rw [Nat.pow_zero, Nat.mul_one, Nat.cast_zero, Int.sub_zero] at hexact
    have hshift : ((0 : Int) - -j).toNat = j := by omega
    rw [UnpackedFloat.ofNat, UnpackedFloat.ofInt, UnpackedFloat.normalize, hcompare]
    dsimp only
    rw [UnpackedFloat.round, Int.toNat_natCast, htarget, UnpackedFloat.decreaseExponent]
    dsimp only
    rw [hshift, Nat.shiftLeft_eq, Int.zero_sub]
    exact hexact
  refine ⟨d * 2 ^ j, -j, hn, ?_, hlong, ?_⟩
  · have hunpack : d.toUInt64.toFloat.toModel.unpack =
        Double.repack (UnpackedFloat.ofNat .binary64 d.toUInt64.toNat) := rfl
    rw [hunpack, hnat, hround]
    exact repack_eq _ hn hlong (by omega) (by omega)
  · push_cast
    rw [zpow_neg, zpow_natCast]
    field_simp

theorem exists_powerOfTen {k : Nat} (hk : k < Float.exactlyRepresentablePowersOfTen.size) :
    ∃ n l hn, Float.exactlyRepresentablePowersOfTen[k].toModel.unpack = .finite .positive n l hn ∧
      n.log2 = 52 ∧ (n * 2 ^ l : ℚ) = 10 ^ k := by
  obtain ⟨n, l, hn, hunpack, hlog, hpower⟩ := Double.exists_powerOfTen hk
  refine ⟨n, l, hn, hunpack, hlog, ?_⟩
  have hpow : (2 : ℚ) ^ (-l).toNat ≠ 0 := by positivity
  rw [← mul_left_inj' hpow, mul_assoc, zpow_mul_pow_toNat (by norm_num)]
  exact_mod_cast hpower

variable {x : Float} {d : Nat} {k : Int}

section Reading

variable {hm : 0 < m} (hunpack : x.toModel.unpack = .finite .positive m e hm)

include hunpack

theorem canonical_of_unpack : Format.binary64.targetExponent (totalExponent m e) = e := by
  have hcanonical := Double.isCanonical_toModel x
  rwa [hunpack] at hcanonical

theorem repack_of_unpack : Double.repack (.finite .positive m e hm) = x.toModel.unpack := by
  rw [← hunpack, Double.repack_unpack]

/-- Few digits divided by an exact power of ten are rounded once. -/
theorem toFloat_div_eq {j : Nat} (hd : 0 < d) (hsmall : d < 2 ^ 53)
    (hj : j < Float.exactlyRepresentablePowersOfTen.size)
    (hx : (Binary64.interval m e).Holds (d / 10 ^ j)) :
    d.toUInt64.toFloat / Float.exactlyRepresentablePowersOfTen[j] = x := by
  obtain ⟨n, l, hn, hwhole, -, hnvalue⟩ := unpack_toFloat hd hsmall
  obtain ⟨p, q, hp, hpower, -, hpvalue⟩ := exists_powerOfTen hj
  have hdiv : (d.toUInt64.toFloat / Float.exactlyRepresentablePowersOfTen[j]).toModel.unpack =
      Double.repack (UnpackedFloat.div .binary64 d.toUInt64.toFloat.toModel.unpack
        Float.exactlyRepresentablePowersOfTen[j].toModel.unpack) := rfl
  apply Double.eq_of_unpack
  rw [hdiv, hwhole, hpower, div_eq hn hp hm (canonical_of_unpack hunpack)]
  · exact repack_of_unpack hunpack
  · rw [hnvalue, hpvalue]
    exact hx

/-- So are few digits multiplied by one. -/
theorem toFloat_mul_eq {j : Nat} (hd : 0 < d) (hsmall : d < 2 ^ 53)
    (hj : j < Float.exactlyRepresentablePowersOfTen.size)
    (hx : (Binary64.interval m e).Holds (d * 10 ^ j)) :
    d.toUInt64.toFloat * Float.exactlyRepresentablePowersOfTen[j] = x := by
  obtain ⟨n, l, hn, hwhole, hlog, hnvalue⟩ := unpack_toFloat hd hsmall
  obtain ⟨p, q, hp, hpower, -, hpvalue⟩ := exists_powerOfTen hj
  have hmul : (d.toUInt64.toFloat * Float.exactlyRepresentablePowersOfTen[j]).toModel.unpack =
      Double.repack (UnpackedFloat.mul .binary64 d.toUInt64.toFloat.toModel.unpack
        Float.exactlyRepresentablePowersOfTen[j].toModel.unpack) := rfl
  -- the first factor has all digits, so the product has enough
  have hlong : 52 ≤ (n * p).log2 := by
    have hle := log2_le_log2 (Nat.le_mul_of_pos_right n hp)
    omega
  apply Double.eq_of_unpack
  rw [hmul, hwhole, hpower, mul_eq hn hp hlong hm (canonical_of_unpack hunpack)]
  · exact repack_of_unpack hunpack
  · rw [hnvalue, hpvalue]
    exact hx

/-- A decimal with an exponent and digits in the range of machine numbers is read as the number in
whose interval it lies. -/
theorem float_ofScientific_eq (hd : 0 < d) (hupper : k ≤ 2048)
    (hlower : -(2048 + (d.log2 : Int)) ≤ k) (hx : (Binary64.interval m e).Holds (d * 10 ^ k)) :
    Float.ofScientific d (k < 0) k.natAbs = x := by
  unfold Float.ofScientific
  by_cases hsmall : d < 2 ^ 53 ∧ k.natAbs ≤ 22
  · have hk : k.natAbs < Float.exactlyRepresentablePowersOfTen.size :=
      Nat.lt_succ_of_le hsmall.2
    rw [dif_pos hsmall]
    dsimp only
    by_cases hsign : k < 0
    · have hexponent : k = -(k.natAbs : Int) := by omega
      rw [hexponent, zpow_neg, zpow_natCast, ← div_eq_mul_inv] at hx
      rw [if_pos (decide_eq_true hsign)]
      exact toFloat_div_eq hunpack hd hsmall.1 hk hx
    · have hexponent : k = (k.natAbs : Int) := by omega
      rw [hexponent, zpow_natCast] at hx
      rw [if_neg (by simpa using hsign)]
      exact toFloat_mul_eq hunpack hd hsmall.1 hk hx
  · have hexponent : (if decide (k < 0) = true then Int.negOfNat k.natAbs else
        Int.ofNat k.natAbs) = k := by
      split_ifs with hsign
      · have hsign := of_decide_eq_true hsign
        rw [Int.negOfNat_eq]
        change -(k.natAbs : Int) = k
        omega
      · have hsign : ¬ k < 0 := by simpa using hsign
        change (k.natAbs : Int) = k
        omega
    rw [dif_neg hsmall]
    dsimp only
    rw [hexponent]
    have hpacked : (Float.Model.ofScientific d k).unpack =
        Double.repack (UnpackedFloat.ofScientific .binary64 d k) := rfl
    apply Double.eq_of_unpack
    rw [hpacked, ofScientific_eq hd hupper hlower hm (canonical_of_unpack hunpack) hx]
    exact repack_of_unpack hunpack

/-- Machine numbers have a largest exponent. -/
theorem exponent_le : e ≤ 971 := by
  by_contra hlt
  have hrepack := repack_of_unpack hunpack
  rw [hunpack] at hrepack
  have hinfinity : Double.repack (.finite .positive m e hm) = .infinity .positive := by
    have hlarge : 2 ^ Format.binary64.exponentBits ≤ (e + Format.binary64.exponentBias +
        Format.binary64.mantissaBitsWithoutImplicit).toNat + 1 := by
      change 2048 ≤ (e + ((1023 : Nat) : Int) + ((52 : Nat) : Int)).toNat + 1
      omega
    rw [Double.repack]
    simp only [UnpackedFloat.pack]
    rw [if_pos hlarge]
    rfl
  rw [hinfinity] at hrepack
  cases hrepack

end Reading

/-! ### The range of decimals -/

theorem two_pow_le_ten_pow {a b : Nat} (h : a ≤ 3 * b) : (2 : ℚ) ^ a ≤ 10 ^ b := by
  calc (2 : ℚ) ^ a ≤ 2 ^ (3 * b) := pow_le_pow_right₀ (by norm_num) h
    _ = (2 ^ 3) ^ b := pow_mul _ _ _
    _ ≤ 10 ^ b := by gcongr; norm_num

/-- What is near to a machine number is not too small. -/
theorem lower_of_holds {z : ℚ} (hm : 0 < m) (hleast : -1074 ≤ e)
    (hz : (Binary64.interval m e).Holds z) : (2 : ℚ) ^ (-1076 : Int) ≤ z := by
  have hone : 1 ≤ (Binary64.interval m e).lower := by
    simp only [Binary64.interval]
    split_ifs <;> omega
  calc (2 : ℚ) ^ (-1076 : Int) ≤ 2 ^ (e - 2) := zpow_le_zpow_right₀ (by norm_num) (by omega)
    _ ≤ (Binary64.interval m e).lower * 2 ^ (e - 2) :=
      le_mul_of_one_le_left (by positivity) (by exact_mod_cast hone)
    _ ≤ z := hz.lower

/-- What is near to a machine number is not too large. -/
theorem upper_of_holds {z : ℚ} (hdigits : m < 2 ^ 53) (hgreatest : e ≤ 971)
    (hz : (Binary64.interval m e).Holds z) : z ≤ 2 ^ (1025 : Int) := by
  have hle : (Binary64.interval m e).upper ≤ 2 ^ 56 := by
    simp only [Binary64.interval]
    omega
  calc z ≤ (Binary64.interval m e).upper * 2 ^ (e - 2) := hz.upper
    _ ≤ 2 ^ 56 * 2 ^ (969 : Int) := by
      gcongr
      · exact_mod_cast hle
      · norm_num
      · omega
    _ = 2 ^ (1025 : Int) := by
      rw [← zpow_natCast, ← zpow_add₀ (by norm_num)]
      rfl

/-- A decimal lies between two powers of ten that its width and its exponent tell. -/
theorem value_lt_pow (d : Nat) (k : Int) :
    (d * 10 ^ k : ℚ) < 10 ^ ((Decimal.width d : Int) + k) := by
  have hlt : (d : ℚ) < 10 ^ Decimal.width d := by exact_mod_cast Decimal.lt_pow_width d
  calc (d * 10 ^ k : ℚ) < 10 ^ Decimal.width d * 10 ^ k := by gcongr
    _ = 10 ^ ((Decimal.width d : Int) + k) := by rw [zpow_add₀ (by norm_num), zpow_natCast]

theorem pow_le_value (hd : 0 < d) (k : Int) :
    (10 : ℚ) ^ ((Decimal.width d : Int) - 1 + k) ≤ d * 10 ^ k := by
  have hle : (10 : ℚ) ^ (Decimal.width d - 1) ≤ d := by exact_mod_cast Decimal.pow_width_le hd
  have hwidth : 0 < Decimal.width d := Nat.length_toDigits_pos
  have hexponent : (Decimal.width d : Int) - 1 = (Decimal.width d - 1 : Nat) := by omega
  calc (10 : ℚ) ^ ((Decimal.width d : Int) - 1 + k) = 10 ^ (Decimal.width d - 1) * 10 ^ k := by
        rw [zpow_add₀ (by norm_num), hexponent, zpow_natCast]
    _ ≤ d * 10 ^ k := by gcongr

/-- A decimal that is near to a machine number has a moderate leading digit. -/
theorem width_of_holds (hlog : m.log2 ≤ 52) (hleast : -1074 ≤ e) (hgreatest : e ≤ 971)
    (hm : 0 < m) (hx : (Binary64.interval m e).Holds (d * 10 ^ k)) :
    0 < d ∧ -400 ≤ (Decimal.width d : Int) + k ∧ (Decimal.width d : Int) + k ≤ 400 := by
  have hd : 0 < d := by
    by_contra hzero
    obtain rfl : d = 0 := by omega
    have hpositive := pos_of_holds hm hx
    simp at hpositive
  have hdigits : m < 2 ^ 53 := (Nat.log2_lt hm.ne').mp (by omega)
  refine ⟨hd, ?_, ?_⟩
  · by_contra hsmall
    apply absurd (lower_of_holds hm hleast hx)
    rw [not_le]
    calc (d * 10 ^ k : ℚ) < 10 ^ ((Decimal.width d : Int) + k) := value_lt_pow d k
      _ ≤ 10 ^ (-401 : Int) := zpow_le_zpow_right₀ (by norm_num) (by omega)
      _ ≤ 2 ^ (-1076 : Int) := by
        rw [zpow_neg, zpow_neg, zpow_ofNat, zpow_ofNat]
        exact inv_anti₀ (by positivity) (two_pow_le_ten_pow (by decide))
  · by_contra hlarge
    apply absurd (upper_of_holds hdigits hgreatest hx)
    rw [not_le]
    calc (2 : ℚ) ^ (1025 : Int) < 2 ^ (1026 : Int) := zpow_lt_zpow_right₀ (by norm_num) (by decide)
      _ ≤ 10 ^ (400 : Int) := by
        rw [zpow_ofNat, zpow_ofNat]
        exact two_pow_le_ten_pow (by decide)
      _ ≤ 10 ^ ((Decimal.width d : Int) - 1 + k) := zpow_le_zpow_right₀ (by norm_num) (by omega)
      _ ≤ d * 10 ^ k := pow_le_value hd k

/-- A decimal is read as the machine number in whose interval it lies. -/
theorem ofDecimal_eq {hm : 0 < m} (hunpack : x.toModel.unpack = .finite .positive m e hm)
    (hx : (Binary64.interval m e).Holds (d * 10 ^ k)) : Binary64.ofDecimal d k = x := by
  obtain ⟨hlog, hleast, -⟩ := canonical_iff.mp (canonical_of_unpack hunpack)
  -- neither cut of the reader is reached, so the decimal comes to be rounded
  obtain ⟨hd, hlower, hupper⟩ := width_of_holds hlog hleast (exponent_le hunpack) hm hx
  have hwidth : Decimal.width d ≤ d.log2 + 1 := by
    have hpow : 2 ^ (Decimal.width d - 1) ≤ d :=
      (Nat.pow_le_pow_left (by decide) _).trans (Decimal.pow_width_le hd)
    have hle := (Nat.le_log2 hd.ne').mpr hpow
    omega
  have hpositive : 0 < Decimal.width d := Nat.length_toDigits_pos
  simp only [Binary64.ofDecimal]
  rw [if_neg (by omega), if_neg (by omega)]
  exact float_ofScientific_eq hunpack hd (by omega) (by omega) hx

end Nearest

end FormulaCalculus
