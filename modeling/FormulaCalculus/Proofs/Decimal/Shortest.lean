import Mathlib
import FormulaCalculus.Scalar.Binary64

/-!
The shortest decimal that names a binary number. The decimal lies in the interval of the reals that
round to the number: the tests are exact comparisons, and seventeen digits are always enough to hit
the interval.
-/

namespace FormulaCalculus

/-- The number that a decimal stands for. -/
def Decimal.value (r : Decimal) : ℚ := r.digits * 10 ^ r.exponent

/-- Whether a number lies in the interval. -/
structure RoundingInterval.Holds (i : RoundingInterval) (x : ℚ) : Prop where
  lower : i.lower * 2 ^ i.exponent ≤ x
  upper : x ≤ i.upper * 2 ^ i.exponent
  inside : i.closed = false → i.lower * 2 ^ i.exponent < x ∧ x < i.upper * 2 ^ i.exponent

theorem zpow_mul_pow_toNat {b : ℚ} (hb : b ≠ 0) (q : Int) :
    b ^ q * b ^ (-q).toNat = b ^ q.toNat := by
  rw [← zpow_natCast, ← zpow_natCast, ← zpow_add₀ hb]
  congr 1
  omega

namespace Decimal

/-! ### Widths -/

theorem lt_pow_width (n : Nat) : n < 10 ^ width n :=
  (Nat.length_toDigits_le_iff (by decide) Nat.length_toDigits_pos).mp le_rfl

theorem pow_width_le {n : Nat} (hn : 0 < n) : 10 ^ (width n - 1) ≤ n := by
  by_cases hone : width n = 1
  · rw [hone]
    exact hn
  · have hpos : 0 < width n := Nat.length_toDigits_pos
    by_contra hlt
    have hle : width n ≤ width n - 1 :=
      (Nat.length_toDigits_le_iff (by decide) (by omega)).mpr (not_le.mp hlt)
    omega

/-- The leading digit is not behind the exponent found for it. -/
theorem pow_leadingExponent_le {m : Nat} (hm : 0 < m) (q : Int) :
    (10 : ℚ) ^ leadingExponent m q ≤ m * 2 ^ q := by
  have hscale : ((m * Nat.pow 2 q.toNat * Nat.pow 5 (-q).toNat : Nat) : ℚ) =
      m * 2 ^ q * 10 ^ (-q).toNat := by
    have hten : (10 : ℚ) ^ (-q).toNat = 2 ^ (-q).toNat * 5 ^ (-q).toNat := by
      rw [← mul_pow]
      norm_num
    rw [Nat.pow_eq, Nat.pow_eq]
    push_cast
    rw [hten, ← zpow_mul_pow_toNat (by norm_num) q]
    ring
  have hpos : 0 < m * Nat.pow 2 q.toNat * Nat.pow 5 (-q).toNat :=
    Nat.mul_pos (Nat.mul_pos hm (Nat.pow_pos (by decide))) (Nat.pow_pos (by decide))
  unfold leadingExponent
  generalize m * Nat.pow 2 q.toNat * Nat.pow 5 (-q).toNat = n at hscale hpos ⊢
  have hwidth : 0 < width n := Nat.length_toDigits_pos
  have hn : (10 : ℚ) ^ (width n - 1) ≤ n := by exact_mod_cast pow_width_le hpos
  have hsplit : ((width n : Int) - 1 - (-q).toNat) = ((width n - 1 : Nat) : Int) - (-q).toNat := by
    omega
  rw [hsplit, zpow_sub₀ (by norm_num), zpow_natCast, zpow_natCast,
    div_le_iff₀ (by positivity), ← hscale]
  exact hn

/-- The dropped zeros do not count. -/
theorem value_trimmed (n d : Nat) (k : Int) : (trimmed n d k).value = d * 10 ^ k := by
  induction n generalizing d k with
  | zero => rfl
  | succ n ih =>
    unfold trimmed
    split_ifs with h
    · have hd : (d : ℚ) = (d / 10 : Nat) * 10 := by exact_mod_cast (by omega : d = d / 10 * 10)
      rw [ih, zpow_add_one₀ (by norm_num), hd]
      ring
    · rfl

end Decimal

namespace RoundingInterval

open Decimal

variable {i : RoundingInterval} {k : Int}

/-- Binary and decimal units are compared as multiples of one number. -/
theorem exists_unit (q k : Int) : ∃ u : ℚ, 0 < u ∧
    (∀ x : Nat, ((x * (unitRatio q k).1 : Nat) : ℚ) = x * 2 ^ q * u) ∧
      ∀ d : Nat, ((d * (unitRatio q k).2 : Nat) : ℚ) = d * 10 ^ k * u := by
  have htwo := zpow_mul_pow_toNat (b := 2) (by norm_num) q
  have hten := zpow_mul_pow_toNat (b := 10) (by norm_num) k
  -- the denominators of both powers, so that both units become whole
  refine ⟨2 ^ (-q).toNat * 10 ^ (-k).toNat, by positivity, fun x => ?_, fun d => ?_⟩
  · simp only [unitRatio, Nat.pow_eq]
    push_cast
    rw [← htwo]
    ring
  · simp only [unitRatio, Nat.pow_eq]
    push_cast
    rw [← hten]
    ring

theorem units_le_iff (q k : Int) (x d : Nat) :
    x * (unitRatio q k).1 ≤ d * (unitRatio q k).2 ↔ (x : ℚ) * 2 ^ q ≤ d * 10 ^ k := by
  obtain ⟨u, hu, hbinary, hdecimal⟩ := exists_unit q k
  rw [← Nat.cast_le (α := ℚ), hbinary, hdecimal, mul_le_mul_iff_of_pos_right hu]

theorem le_units_iff (q k : Int) (x d : Nat) :
    d * (unitRatio q k).2 ≤ x * (unitRatio q k).1 ↔ (d : ℚ) * 10 ^ k ≤ x * 2 ^ q := by
  obtain ⟨u, hu, hbinary, hdecimal⟩ := exists_unit q k
  rw [← Nat.cast_le (α := ℚ), hbinary, hdecimal, mul_le_mul_iff_of_pos_right hu]

theorem contains_iff (d : Nat) : i.contains d k = true ↔ i.Holds (d * 10 ^ k) := by
  have hlower := units_le_iff i.exponent k i.lower d
  have hupper := le_units_iff i.exponent k i.upper d
  have hlower' := le_units_iff i.exponent k i.lower d
  have hupper' := units_le_iff i.exponent k i.upper d
  unfold contains
  dsimp only
  cases hclosed : i.closed with
  | true =>
    simp only [if_true, Bool.and_eq_true, decide_eq_true_eq, hlower, hupper]
    refine ⟨fun h => ⟨h.1, h.2, fun h' => ?_⟩, fun h => ⟨h.lower, h.upper⟩⟩
    rw [hclosed] at h'
    nomatch h'
  | false =>
    simp only [Bool.false_eq_true, if_false, Bool.and_eq_true, decide_eq_true_eq, ← not_le,
      hlower', hupper']
    simp only [not_le]
    exact ⟨fun h => ⟨h.1.le, h.2.le, fun _ => h⟩, fun h => h.inside hclosed⟩

/-! ### The search -/

theorem holds_of_onGrid? {r : Decimal} (h : i.onGrid? k = some r) : i.Holds r.value := by
  unfold onGrid? at h
  dsimp only at h
  split_ifs at h with hbelow habove
  · obtain rfl := Option.some.inj h
    exact (contains_iff _).mp (Bool.and_eq_true_iff.mp hbelow).1
  · obtain rfl := Option.some.inj h
    exact (contains_iff _).mp habove

theorem holds_of_lt {x : ℚ} (hlower : i.lower * 2 ^ i.exponent < x)
    (hupper : x < i.upper * 2 ^ i.exponent) : i.Holds x :=
  ⟨hlower.le, hupper.le, fun _ => ⟨hlower, hupper⟩⟩

/-- One of the two neighbours of the centre hits an interval that is wider than the grid. -/
theorem exists_onGrid? (hlower : i.lower < i.center) (hupper : i.center < i.upper)
    (hwide : (10 : ℚ) ^ k < (i.upper - i.lower) * 2 ^ i.exponent) :
    ∃ r, i.onGrid? k = some r := by
  have hunit : (0 : ℚ) < 2 ^ i.exponent := by positivity
  have hlower' : (i.lower : ℚ) * 2 ^ i.exponent < i.center * 2 ^ i.exponent := by gcongr
  have hupper' : (i.center : ℚ) * 2 ^ i.exponent < i.upper * 2 ^ i.exponent := by gcongr
  obtain ⟨d, hd⟩ : ∃ d, d = i.center * (unitRatio i.exponent k).1 / (unitRatio i.exponent k).2 :=
    ⟨_, rfl⟩
  have hb : 0 < (unitRatio i.exponent k).2 :=
    Nat.mul_pos (Nat.pow_pos (by decide)) (Nat.pow_pos (by decide))
  have hbelow : (d : ℚ) * 10 ^ k ≤ i.center * 2 ^ i.exponent :=
    (le_units_iff _ _ _ _).mp (hd ▸ Nat.div_mul_le_self _ _)
  have habove : (i.center : ℚ) * 2 ^ i.exponent < (d + 1 : Nat) * 10 ^ k := by
    rw [← not_le, ← le_units_iff, not_le, hd, Nat.mul_comm (_ + 1)]
    exact Nat.lt_mul_div_succ _ hb
  -- otherwise the interval lies between the neighbours
  have hcontains : i.contains d k = true ∨ i.contains (d + 1) k = true := by
    rw [contains_iff, contains_iff]
    by_contra hnone
    obtain ⟨hnot, hnot'⟩ := not_or.mp hnone
    have hle := not_lt.mp fun h => hnot (holds_of_lt h (hbelow.trans_lt hupper'))
    have hge := not_lt.mp fun h => hnot' (holds_of_lt (hlower'.trans habove) h)
    push_cast at hge
    linarith
  unfold onGrid?
  dsimp only
  rw [← hd]
  split_ifs with hfirst hsecond
  · exact ⟨_, rfl⟩
  · exact ⟨_, rfl⟩
  · have hbelow := hcontains.resolve_right hsecond
    simp [hbelow, hsecond] at hfirst

/-- Seventeen digits are enough if the interval is not too narrow for its centre. -/
theorem holds_shortest (hlower : i.lower < i.center) (hupper : i.center < i.upper)
    (hwide : i.center < (i.upper - i.lower) * 10 ^ 16) : i.Holds i.shortest.value := by
  have hleading := pow_leadingExponent_le (Nat.zero_lt_of_lt hlower) i.exponent
  obtain ⟨r, hr⟩ : ∃ r, i.onGrid? (leadingExponent i.center i.exponent - (16 : Nat)) = some r := by
    -- the leading digit of the centre stands sixteen places in front of this grid
    refine exists_onGrid? hlower hupper ?_
    have hwide' : (i.center : ℚ) < (i.upper - i.lower) * 10 ^ 16 := by
      have hle : i.lower ≤ i.upper := (hlower.trans hupper).le
      exact_mod_cast hwide
    rw [zpow_sub₀ (by norm_num), div_lt_iff₀ (by positivity)]
    calc (10 : ℚ) ^ leadingExponent i.center i.exponent ≤ i.center * 2 ^ i.exponent := hleading
      _ < (i.upper - i.lower) * 10 ^ 16 * 2 ^ i.exponent := by gcongr
      _ = _ := by norm_num; ring
  -- a shorter decimal is taken if it hits, and the seventeenth digit is the last that is tried
  unfold shortest
  dsimp only
  split
  · rename_i s hs
    obtain ⟨n, -, hn⟩ := List.exists_of_findSome?_eq_some hs
    rw [value_trimmed]
    exact holds_of_onGrid? hn
  · rename_i hnone
    have h := List.findSome?_eq_none_iff.mp hnone 16 (by simp)
    rw [hr] at h
    nomatch h

end RoundingInterval

namespace Binary64

/-- The shortest decimal lies in the interval of the binary number. -/
theorem holds_shortest {m : Nat} {q : Int} (hm : 0 < m) (hlt : m < 2 ^ 53) :
    (interval m q).Holds (interval m q).shortest.value := by
  refine RoundingInterval.holds_shortest ?_ ?_ ?_
  · simp only [interval]
    split_ifs <;> omega
  · simp only [interval]
    omega
  · have hbit : hiddenBit = 2 ^ 52 := rfl
    simp only [interval]
    split_ifs <;> omega

end Binary64

end FormulaCalculus
