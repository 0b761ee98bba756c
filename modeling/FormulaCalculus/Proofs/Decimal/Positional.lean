import FormulaCalculus.Proofs.Decimal.Shortest
import FormulaCalculus.Proofs.Token.Numeral
import FormulaCalculus.Proofs.Token.Operand

/-!
The positional written form of a decimal. It is digits with at most one point, and read as a numeral
it stands for the decimal.
-/

namespace FormulaCalculus

namespace Numeral

/-- Digits with at most one point are read digit by digit. -/
theorem parse?_digits {whole fraction : List Char} (hne : whole ≠ [])
    (hwhole : ∀ c ∈ whole, c.isDigit = true) (hfraction : ∀ c ∈ fraction, c.isDigit = true) :
    parse? (whole ++ if fraction.isEmpty then [] else '.' :: fraction) =
      some (.decimal false (natOfDigits (whole ++ fraction)) (-fraction.length)) := by
  have hempty : whole.isEmpty = false := by simpa using hne
  have hsigned (cs : List Char) : parse? (whole ++ cs) = unsigned? false (whole ++ cs) := by
    obtain ⟨c, ds, rfl⟩ := List.exists_cons_of_ne_nil hne
    exact parse?_of_isDigit (hwhole c List.mem_cons_self)
  rw [hsigned]
  cases fraction with
  | nil =>
    have hread : unsigned? false (whole ++ []) = _ := unsigned?_whole hwhole (by simp)
    rw [List.isEmpty_nil, if_pos rfl, hread, hempty]
    simp [exponent?]
  | cons c ds =>
    have hread : unsigned? false (whole ++ '.' :: (c :: ds ++ [])) = _ :=
      unsigned?_point hwhole hfraction (by simp)
    rw [List.append_nil, hempty] at hread
    rw [List.isEmpty_cons, if_neg Bool.false_ne_true, hread]
    simp [exponent?]

end Numeral

namespace Decimal

/-- The written form in its two parts, with the number that the digits make up. -/
theorem exists_render (r : Decimal) : ∃ whole fraction : List Char,
    r.render.toList = (whole ++ if fraction.isEmpty then [] else '.' :: fraction) ∧ whole ≠ [] ∧
      (∀ c ∈ whole, c.isDigit = true) ∧ (∀ c ∈ fraction, c.isDigit = true) ∧
        (Numeral.natOfDigits (whole ++ fraction) * 10 ^ (-(fraction.length : Int)) : ℚ) =
          r.value := by
  obtain ⟨d, k⟩ := r
  obtain ⟨places, hplaces⟩ : ∃ places, places = (-k).toNat := ⟨_, rfl⟩
  -- zeros are put in front of the digits until one stands in front of the point
  obtain ⟨padded, hpadded⟩ : ∃ padded, padded =
    List.replicate (places + 1 - (Nat.toDigits 10 d).length) '0' ++ Nat.toDigits 10 d := ⟨_, rfl⟩
  have hlength : places + 1 ≤ padded.length := by
    rw [hpadded, List.length_append, List.length_replicate]
    omega
  have hdigit : ∀ c ∈ padded, c.isDigit = true := by
    intro c hc
    rw [hpadded, List.mem_append] at hc
    rcases hc with hc | hc
    · rw [List.eq_of_mem_replicate hc]
      rfl
    · exact Nat.isDigit_of_mem_toDigits (by decide) (by decide) hc
  have hvalue : Numeral.natOfDigits padded = d := by
    have hdigits : Numeral.natOfDigits padded = Nat.ofDigitChars 10 padded 0 := rfl
    rw [hdigits, hpadded, Nat.ofDigitChars_append, Nat.ofDigitChars_replicate_zero, Nat.mul_zero,
      Nat.ofDigitChars_ten_toDigits]
  refine ⟨padded.take (padded.length - places) ++ List.replicate k.toNat '0',
    padded.drop (padded.length - places), ?_, ?_, ?_, ?_, ?_⟩
  · rw [render, String.toList_ofList, ← hplaces, ← hpadded]
  · intro hnil
    have h := congrArg List.length hnil
    rw [List.length_append, List.length_take, List.length_replicate, List.length_nil] at h
    omega
  · intro c hc
    rcases List.mem_append.mp hc with hc | hc
    · exact hdigit c (List.mem_of_mem_take hc)
    · rw [List.eq_of_mem_replicate hc]
      rfl
  · exact fun c hc => hdigit c (List.mem_of_mem_drop hc)
  · -- zeros are put behind the digits or in front of them, never both
    rcases le_or_gt 0 k with hk | hk
    · obtain rfl : places = 0 := by omega
      have hscaled : Numeral.natOfDigits (padded ++ List.replicate k.toNat '0') =
          d * 10 ^ k.toNat := by
        change Nat.ofDigitChars 10 _ 0 = _
        rw [Nat.ofDigitChars_append, Nat.ofDigitChars_replicate_zero, Nat.mul_comm]
        exact congrArg (· * 10 ^ k.toNat) hvalue
      rw [Nat.sub_zero, List.take_length, List.drop_length, List.append_nil, hscaled, value]
      push_cast
      rw [← zpow_natCast, Int.toNat_of_nonneg hk]
      simp
    · have hnone : k.toNat = 0 := by omega
      have hfraction : (padded.drop (padded.length - places)).length = places := by
        rw [List.length_drop]
        omega
      have hexponent : -(places : Int) = k := by omega
      rw [hnone, List.replicate_zero, List.append_nil, List.take_append_drop, hvalue, hfraction,
        hexponent]
      rfl

/-- The written form of a decimal is a numeral that stands for it. -/
theorem parse?_render (r : Decimal) : ∃ d k,
    Numeral.parse? r.render.toList = some (.decimal false d k) ∧ (d * 10 ^ k : ℚ) = r.value := by
  obtain ⟨whole, fraction, htext, hne, hwhole, hfraction, hvalue⟩ := r.exists_render
  refine ⟨_, _, ?_, hvalue⟩
  rw [htext]
  exact Numeral.parse?_digits hne hwhole hfraction

theorem isNumeral_render (r : Decimal) : IsNumeral r.render.toList := by
  obtain ⟨whole, fraction, htext, hne, hwhole, hfraction, -⟩ := r.exists_render
  exact ⟨whole, fraction, hne, hwhole, hfraction, htext⟩

end Decimal

end FormulaCalculus
