import FormulaCalculus.Proofs.Decimal.Shortest
import FormulaCalculus.Proofs.Scalar.DoubleLaws

/-!
Rounding to the nearest machine number. A quotient of whole numbers, however it is scaled, is
rounded to the number in whose interval it lies.
-/

namespace FormulaCalculus

open Float.Model (UnpackedFloat Format totalExponent)
open Float.Model.UnpackedFloat (Sign ExtendedMantissa Accuracy accuracyOfFraction)

namespace Nearest

/-- The whole part of a quotient with what the rest is, compared with a half. -/
def extended (n d : Nat) : ExtendedMantissa :=
  .ofMantissaAndAccuracy (n / d) (accuracyOfFraction (n % d) d)

theorem roundedMantissa_extended (n d : Nat) :
    (extended n d).roundedMantissa = (accuracyOfFraction (n % d) d).roundToNearestEven (n / d) := by
  unfold extended accuracyOfFraction
  split_ifs
  · rfl
  · cases compare (2 * (n % d)) d <;> rfl

/-- Half of a quotient, with its rest. -/
theorem shiftRightOne_extended {n d : Nat} (hd : 0 < d) :
    (extended n d).shiftRightOne = extended n (d * 2) := by
  have hrest : n % d < d := Nat.mod_lt n hd
  have hquotient : n / (d * 2) = n / d / 2 := (Nat.div_div_eq_div_mul n d 2).symm
  have hbits (r s : Bool) : (⟨n / d, r, s⟩ : ExtendedMantissa).shiftRightOne =
      ⟨n / d / 2, n / d % 2 != 0, r || s⟩ := rfl
  have hold : (extended n d).shiftRightOne =
      ⟨n / d / 2, n / d % 2 != 0, n % d != 0⟩ := by
    unfold extended accuracyOfFraction
    split_ifs with hzero
    · rw [hzero]
      exact hbits false false
    · have hsticky : (n % d != 0) = true := by simpa using hzero
      rw [hsticky]
      cases h : compare (2 * (n % d)) d <;> exact hbits _ _
  rw [hold]
  unfold extended accuracyOfFraction
  rw [hquotient, Nat.mod_mul]
  -- the bit that is shifted out is a half, and what was a half before counts as a rest
  rcases Nat.mod_two_eq_zero_or_one (n / d) with heven | hodd
  · rw [heven, Nat.mul_zero, Nat.add_zero]
    split_ifs with hzero
    · rw [hzero]
      rfl
    · have hlt : compare (2 * (n % d)) (d * 2) = .lt := Nat.compare_eq_lt.mpr (by omega)
      have hsticky : (n % d != 0) = true := by simpa using hzero
      rw [hlt, hsticky]
      rfl
  · rw [hodd, Nat.mul_one, if_neg (by omega)]
    by_cases hzero : n % d = 0
    · have heq : compare (2 * (n % d + d)) (d * 2) = .eq := Nat.compare_eq_eq.mpr (by omega)
      rw [heq, hzero]
      rfl
    · have hgt : compare (2 * (n % d + d)) (d * 2) = .gt := Nat.compare_eq_gt.mpr (by omega)
      have hsticky : (n % d != 0) = true := by simpa using hzero
      rw [hgt, hsticky]
      rfl

theorem extended_shiftRight {d : Nat} (hd : 0 < d) (n k : Nat) :
    extended n d >>> k = extended n (d * 2 ^ k) := by
  induction k with
  | zero =>
    rw [Nat.pow_zero, Nat.mul_one]
    rfl
  | succ k ih =>
    have hstep : extended n d >>> (k + 1) = (extended n d >>> k).shiftRightOne := rfl
    rw [hstep, ih, shiftRightOne_extended (Nat.mul_pos hd (Nat.two_pow_pos k)), Nat.mul_assoc,
      ← Nat.pow_succ]

/-- A quotient is rounded to the nearest whole number, and to an even one in the middle of two. -/
theorem roundedMantissa_eq {n d m : Nat} (hd : 0 < d) (hlower : 2 * (m * d) ≤ 2 * n + d)
    (hupper : 2 * n ≤ 2 * (m * d) + d)
    (hodd : m % 2 = 1 → 2 * (m * d) < 2 * n + d ∧ 2 * n < 2 * (m * d) + d) :
    (extended n d).roundedMantissa = m := by
  have hrest : n % d < d := Nat.mod_lt n hd
  have hn : n / d * d + n % d = n := Nat.div_add_mod' n d
  have hbelow : n / d < m + 1 := (Nat.div_lt_iff_lt_mul hd).mpr (by rw [Nat.add_mul]; omega)
  have habove : m - 1 ≤ n / d := (Nat.le_div_iff_mul_le hd).mpr (by rw [Nat.sub_one_mul]; omega)
  rw [roundedMantissa_extended]
  unfold accuracyOfFraction
  -- the whole part is kept, or rounded up to the number
  obtain rfl | rfl : n / d = m ∨ n / d + 1 = m := by omega
  · split_ifs with hzero
    · rfl
    · cases h : compare (2 * (n % d)) d with
      | lt => rfl
      | eq =>
        rw [Nat.compare_eq_eq] at h
        have heven : n / d % 2 = 0 := by omega
        simp [Accuracy.roundToNearestEven, heven]
      | gt =>
        rw [Nat.compare_eq_gt] at h
        omega
  · rw [Nat.add_mul] at hlower hupper hodd
    rw [if_neg (by omega)]
    cases h : compare (2 * (n % d)) d with
    | lt =>
      rw [Nat.compare_eq_lt] at h
      omega
    | eq =>
      rw [Nat.compare_eq_eq] at h
      have heven : n / d % 2 = 1 := by omega
      simp [Accuracy.roundToNearestEven, heven]
    | gt => rfl

/-! ### Exponents -/

variable {m n d : Nat} {e E : Int}

theorem log2_le_log2 {a b : Nat} (h : a ≤ b) : a.log2 ≤ b.log2 := by
  by_cases ha : a = 0
  · rw [ha]
    exact Nat.zero_le _
  · rw [Nat.le_log2 (by omega)]
    exact (Nat.log2_self_le ha).trans h

theorem log2_of_div {a k : Nat} (h : a / 2 ^ k ≠ 0) : a.log2 = (a / 2 ^ k).log2 + k := by
  have hpow : 0 < 2 ^ k := Nat.two_pow_pos k
  have ha : a ≠ 0 := by
    rintro rfl
    exact h (Nat.zero_div _)
  obtain ⟨hle, hlt⟩ := (Nat.log2_eq_iff h).mp rfl
  rw [Nat.log2_eq_iff ha, Nat.pow_add, Nat.add_right_comm, Nat.pow_add]
  exact ⟨(Nat.le_div_iff_mul_le hpow).mp hle, (Nat.div_lt_iff_lt_mul hpow).mp hlt⟩

/-- The predecessor of a power of two is shorter, and that of no other number. -/
theorem log2_pred {a : Nat} (ha : 1 < a) :
    (a - 1).log2 = a.log2 ∨ (a - 1).log2 + 1 = a.log2 ∧ a = 2 ^ a.log2 := by
  obtain ⟨hle, hlt⟩ := (Nat.log2_eq_iff (by omega : a - 1 ≠ 0)).mp rfl
  by_cases hlast : a < 2 ^ ((a - 1).log2 + 1)
  · exact Or.inl ((Nat.log2_eq_iff (by omega)).mpr ⟨by omega, hlast⟩).symm
  · have ha : a = 2 ^ ((a - 1).log2 + 1) := by omega
    have hlog : a.log2 = (a - 1).log2 + 1 := by
      conv_lhs => rw [ha]
      exact Nat.log2_two_pow
    exact Or.inr ⟨hlog.symm, by rw [hlog]; exact ha⟩

/-- The parts of a canonical number: all digits, or the least exponent. -/
theorem canonical_iff : Format.binary64.targetExponent (totalExponent m e) = e ↔
    m.log2 ≤ 52 ∧ -1074 ≤ e ∧ (m.log2 = 52 ∨ e = -1074) := by
  rw [Double.targetExponent_eq, totalExponent]
  omega

/-- The bounds of a quotient, in units of the last digit of the number it is near to. -/
theorem bounds_of_holds (hm : 0 < m) (hd : 0 < d) (hE : E ≤ e)
    (hx : (Binary64.interval m e).Holds (n / d * 2 ^ E)) {unit : Nat}
    (hunit : unit = d * 2 ^ (e - E).toNat) :
    4 * (m * unit) ≤ 4 * n + 2 * unit ∧ 4 * n ≤ 4 * (m * unit) + 2 * unit ∧
      (m % 2 = 1 → 4 * (m * unit) < 4 * n + 2 * unit ∧ 4 * n < 4 * (m * unit) + 2 * unit) ∧
        (m = 2 ^ 52 → -1074 < e → 4 * (m * unit) ≤ 4 * n + unit) := by
  have hd' : (0 : ℚ) < d := by exact_mod_cast hd
  -- all is measured in fourths of the unit, where the interval below a power of two ends
  obtain ⟨u, hu⟩ : ∃ u : ℚ, u = 2 ^ E / (4 * d) := ⟨_, rfl⟩
  have hpos : 0 < u := hu ▸ by positivity
  have hquotient : (n / d * 2 ^ E : ℚ) = (4 * n : Nat) * u := by
    rw [hu]
    push_cast
    field_simp
  have hend (c : Nat) : (c * 2 ^ (e - 2) : ℚ) = (c * unit : Nat) * u := by
    have hexponent : e = E + ((e - E).toNat : Int) := by omega
    have hsplit : (2 : ℚ) ^ (e - 2) = 2 ^ E * 2 ^ (e - E).toNat / 4 := by
      rw [zpow_sub₀ (by norm_num), ← zpow_natCast, ← zpow_add₀ (by norm_num), ← hexponent]
      norm_num
    rw [hu, hsplit, hunit]
    push_cast
    field_simp
  obtain ⟨hlower, hupper, hinside⟩ := hx
  simp only [Binary64.interval, decide_eq_false_iff_not] at hlower hupper hinside
  simp only [hend, hquotient, mul_le_mul_iff_of_pos_right hpos, mul_lt_mul_iff_of_pos_right hpos,
    Nat.cast_le, Nat.cast_lt] at hlower hupper hinside
  have hleast : Binary64.leastExponent = -1074 := rfl
  have hbit : Binary64.hiddenBit = 2 ^ 52 := rfl
  have hproduct (c : Nat) : (4 * m - c) * unit = 4 * (m * unit) - c * unit := by
    rw [Nat.sub_mul, Nat.mul_assoc]
  rw [hleast, hbit] at hlower hinside
  have hmonotone : (1 : Nat) * unit ≤ m * unit := Nat.mul_le_mul_right _ hm
  rw [Nat.add_mul, Nat.mul_assoc] at hupper
  split_ifs at hlower hinside with hcondition
  · rw [hproduct] at hlower
    exact ⟨by omega, by omega, fun hodd => by omega, fun _ _ => by omega⟩
  · rw [hproduct] at hlower hinside
    refine ⟨by omega, by omega, fun hodd => ?_, fun h h' => absurd ⟨h, h'⟩ hcondition⟩
    obtain ⟨hlower', hupper'⟩ := hinside (by omega)
    rw [Nat.add_mul, Nat.mul_assoc] at hupper'
    exact ⟨by omega, by omega⟩

/-- A quotient is not near to a number with a smaller unit than that of its digits. -/
theorem le_of_holds (hd : 0 < d)
    (hcanonical : Format.binary64.targetExponent (totalExponent m e) = e)
    (hE : E ≤ Format.binary64.targetExponent (totalExponent (n / d) E))
    (hx : (Binary64.interval m e).Holds (n / d * 2 ^ E)) : E ≤ e := by
  by_contra hlt
  have hd' : (0 : ℚ) < d := by exact_mod_cast hd
  obtain ⟨j, hj⟩ : ∃ j : Nat, E = e + j := ⟨(E - e).toNat, by omega⟩
  -- the digits of the quotient, in the smaller unit
  have hdigits : n / d * 2 ^ j ≤ m := by
    have hupper := hx.upper
    simp only [Binary64.interval] at hupper
    have hle : (n / d * 2 ^ j : ℚ) ≤ m + 1 / 2 := by
      rw [hj, zpow_add₀ (by norm_num), zpow_sub₀ (by norm_num), zpow_natCast] at hupper
      have hunit : (0 : ℚ) < 2 ^ e := by positivity
      rw [← mul_le_mul_iff_of_pos_right hunit]
      push_cast at hupper
      linarith
    have hfloor : ((n / d : Nat) : ℚ) ≤ n / d := Nat.cast_div_le
    have hlt : ((n / d * 2 ^ j : Nat) : ℚ) < (m + 1 : Nat) := by
      push_cast
      have hpow : (0 : ℚ) < 2 ^ j := by positivity
      nlinarith
    exact Nat.lt_succ_iff.mp (by exact_mod_cast hlt)
  obtain ⟨hlog, hleast, hcases⟩ := canonical_iff.mp hcanonical
  rw [Double.targetExponent_eq, totalExponent] at hE
  by_cases hzero : n / d = 0
  · rw [hzero, Nat.log2_zero] at hE
    omega
  · have hle := log2_le_log2 hdigits
    rw [Double.log2_mul_two_pow hzero] at hle
    omega

/-- The exponent that a quotient is rounded with is that of the number it is near to, or the one
below if that number is the least with its exponent and the quotient is smaller. -/
theorem targetExponent_of_holds (hd : 0 < d) (hm : 0 < m)
    (hcanonical : Format.binary64.targetExponent (totalExponent m e) = e)
    (hE : E ≤ Format.binary64.targetExponent (totalExponent (n / d) E))
    (hx : (Binary64.interval m e).Holds (n / d * 2 ^ E)) :
    Format.binary64.targetExponent (totalExponent (n / d) E) = e ∨
      Format.binary64.targetExponent (totalExponent (n / d) E) = e - 1 ∧ m = 2 ^ 52 ∧ -1074 < e ∧
        n < m * (d * 2 ^ (e - E).toNat) := by
  have hEe := le_of_holds hd hcanonical hE hx
  obtain ⟨k, hk⟩ : ∃ k : Nat, e = E + k := ⟨(e - E).toNat, by omega⟩
  have hkn : (e - E).toNat = k := by omega
  obtain ⟨hlower, hupper, -, -⟩ := bounds_of_holds hm hd hEe hx rfl
  rw [hkn] at hlower hupper ⊢
  have hunit : 0 < d * 2 ^ k := Nat.mul_pos hd (Nat.two_pow_pos k)
  -- the whole part, in the unit of the number, is the number or one less
  have hwhole : n / d / 2 ^ k = n / (d * 2 ^ k) := Nat.div_div_eq_div_mul _ _ _
  have hbelow : n / (d * 2 ^ k) < m + 1 :=
    (Nat.div_lt_iff_lt_mul hunit).mpr (by rw [Nat.add_mul]; omega)
  have habove : m - 1 ≤ n / (d * 2 ^ k) :=
    (Nat.le_div_iff_mul_le hunit).mpr (by rw [Nat.sub_one_mul]; omega)
  obtain ⟨hlog, hleast, hcases⟩ := canonical_iff.mp hcanonical
  rw [Double.targetExponent_eq, totalExponent]
  obtain hsame | hless : n / (d * 2 ^ k) = m ∨ n / (d * 2 ^ k) = m - 1 := by omega
  · have hdigits := log2_of_div (a := n / d) (k := k) (by omega)
    rw [hwhole, hsame] at hdigits
    left
    omega
  by_cases hone : m = 1
  · subst hone
    have hsmall : n / d < 2 ^ k :=
      (Nat.div_eq_zero_iff_lt (Nat.two_pow_pos k)).mp (hwhole.trans hless)
    have hdigits : n / d = 0 ∨ (n / d).log2 < k := by
      by_cases hzero : n / d = 0
      · exact Or.inl hzero
      · exact Or.inr ((Nat.log2_lt hzero).mpr hsmall)
    have hlog : Nat.log2 1 = 0 := rfl
    left
    rcases hdigits with hzero | hdigits
    · rw [hzero, Nat.log2_zero]
      omega
    · omega
  · have hdigits := log2_of_div (a := n / d) (k := k) (by omega)
    rw [hwhole, hless] at hdigits
    have hlt : n < m * (d * 2 ^ k) := by
      have hlt := (Nat.div_lt_iff_lt_mul hunit).mp (Nat.lt_succ_self (n / (d * 2 ^ k)))
      rwa [hless, Nat.succ_eq_add_one, Nat.sub_add_cancel hm] at hlt
    rcases log2_pred (a := m) (by omega) with hlog | ⟨hlog, hpow⟩
    · left
      omega
    · by_cases hleast' : e = -1074
      · left
        omega
      · have hlog52 : m.log2 = 52 := hcases.resolve_right hleast'
        rw [hlog52] at hpow
        exact Or.inr ⟨by omega, hpow, by omega, hlt⟩

/-- A quotient is rounded to the number in whose interval it lies. -/
theorem roundWithAccuracy_eq (s : Sign) (hd : 0 < d) (hm : 0 < m)
    (hcanonical : Format.binary64.targetExponent (totalExponent m e) = e)
    (hE : E ≤ Format.binary64.targetExponent (totalExponent (n / d) E))
    (hx : (Binary64.interval m e).Holds (n / d * 2 ^ E)) :
    UnpackedFloat.roundWithAccuracy .binary64 s (n / d) E (accuracyOfFraction (n % d) d) =
      .finite s m e hm := by
  have hEe := le_of_holds hd hcanonical hE hx
  -- what is rounded has the exponent found, and a superfluous zero if that is one less
  obtain ⟨j, hj, hmantissa⟩ : ∃ j : Nat,
      Format.binary64.targetExponent (totalExponent (n / d) E) = e - j ∧
        (extended n d >>> (e - j - E).toNat).roundedMantissa = m * 2 ^ j := by
    rcases targetExponent_of_holds hd hm hcanonical hE hx with hsame | ⟨hless, hpow, hleast, hlt⟩
    · refine ⟨0, by simpa using hsame, ?_⟩
      obtain ⟨hlower, hupper, hodd, -⟩ := bounds_of_holds hm hd hEe hx rfl
      rw [extended_shiftRight hd, Nat.pow_zero, Nat.mul_one, Nat.cast_zero, Int.sub_zero]
      refine roundedMantissa_eq (Nat.mul_pos hd (Nat.two_pow_pos _)) (by omega) (by omega) ?_
      intro h
      have := hodd h
      omega
    · refine ⟨1, by simpa using hless, ?_⟩
      obtain ⟨-, -, -, hlower⟩ := bounds_of_holds hm hd hEe hx rfl
      have hlower := hlower hpow hleast
      have hunit : d * 2 ^ (e - E).toNat = 2 * (d * 2 ^ (e - (1 : Nat) - E).toNat) := by
        have hexponent : (e - E).toNat = (e - (1 : Nat) - E).toNat + 1 := by omega
        rw [hexponent, Nat.pow_succ]
        ring
      rw [hunit] at hlower hlt
      rw [extended_shiftRight hd, Nat.pow_one]
      refine roundedMantissa_eq (Nat.mul_pos hd (Nat.two_pow_pos _)) ?_ ?_ fun h => ?_
      · nlinarith
      · nlinarith
      · omega
  have hfirst : UnpackedFloat.shiftToTargetExponent .binary64 (n / d) E
      (accuracyOfFraction (n % d) d) = (extended n d >>> (e - j - E).toNat, e - j) := by
    rw [UnpackedFloat.shiftToTargetExponent, hj, UnpackedFloat.shiftToExponent]
    refine Prod.ext rfl ?_
    change E + ((e - j - E).toNat : Int) = e - j
    omega
  rw [UnpackedFloat.roundWithAccuracy, hfirst]
  dsimp only
  -- a second shift takes off the zeros that rounding up has made
  rw [hmantissa, Double.shiftToTargetExponent_exact hm j hcanonical]
  exact dif_neg hm.ne'

end Nearest

end FormulaCalculus
