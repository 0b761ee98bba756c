import Mathlib.Data.List.TakeWhile
import FormulaCalculus.Proofs.Token.Delimiter

/-!
The text of a number literal: it stands at the front of the text it is read from, has no delimiter,
and does not depend on what stands behind it once a character follows that no literal has.
-/

namespace FormulaCalculus

variable {u x y cs : List Char}

/-- Whether a text is over or goes on with a character that no literal has. -/
def EndsLiteral (cs : List Char) : Prop :=
  ∀ c ∈ cs.head?, c.isDigit = false ∧ c ∉ ['.', '-', '+', 'e', 'E', 'i']

theorem endsLiteral_nil : EndsLiteral [] := by
  intro c hc
  cases hc

theorem endsLiteral_of_isDelimiter {d : Char} (hd : isDelimiter d = true) (more : List Char) :
    EndsLiteral (d :: more) := by
  intro c hc
  obtain rfl := Option.some.inj hc
  rcases isDelimiter_iff.mp hd with rfl | rfl | rfl <;> decide

/-- A reading of the front of a text that takes no delimiter. Where it ends within a text, it ends
there whatever stands behind the text, if only no literal goes on with it. -/
structure ReadsFront (f : List Char → List Char) : Prop where
  starts : ∀ cs, f cs ++ cs.drop (f cs).length = cs
  plain : ∀ cs, IsPlain (f cs)
  ends : ∀ u x y, (f (u ++ x)).length ≤ u.length → EndsLiteral y → f (u ++ y) = f (u ++ x)

namespace ReadsFront

variable {f g : List Char → List Char}

theorem length_le (hf : ReadsFront f) (cs : List Char) : (f cs).length ≤ cs.length := by
  have h := congrArg List.length (hf.starts cs)
  rw [List.length_append] at h
  omega

theorem append (hf : ReadsFront f) (hy : EndsLiteral y) (cs : List Char) : f (cs ++ y) = f cs := by
  have hlength := hf.length_le cs
  have hends := hf.ends cs [] y
  rw [List.append_nil] at hends
  exact hends hlength hy

/-- One reading behind another. -/
theorem seq (hf : ReadsFront f) (hg : ReadsFront g) :
    ReadsFront fun cs => f cs ++ g (cs.drop (f cs).length) where
  starts cs := by
    rw [List.length_append, ← List.drop_drop, List.append_assoc, hg.starts, hf.starts]
  plain cs := isPlain_append.mpr ⟨hf.plain _, hg.plain _⟩
  ends u x y h hy := by
    rw [List.length_append] at h
    have hfirst : (f (u ++ x)).length ≤ u.length := by omega
    rw [hf.ends u x y hfirst hy]
    rw [List.drop_append_of_le_length hfirst] at h ⊢
    rw [List.drop_append_of_le_length hfirst]
    have hsecond : (g (u.drop (f (u ++ x)).length ++ x)).length ≤
        (u.drop (f (u ++ x)).length).length := by
      rw [List.length_drop]
      omega
    rw [hg.ends _ x y hsecond hy]

end ReadsFront

namespace Literal

theorem isDigit_of_isDelimiter {d : Char} (hd : isDelimiter d = true) : d.isDigit = false := by
  rcases isDelimiter_iff.mp hd with rfl | rfl | rfl <;> rfl

/-- Nothing of a literal starts a text that no literal goes on with. -/
theorem of_endsLiteral (hy : EndsLiteral y) :
    y.takeWhile Char.isDigit = [] ∧ fraction y = [] ∧ signText y = [] ∧ exponent y = [] ∧
      (y.head? == some 'i') = false := by
  cases y with
  | nil => exact ⟨rfl, rfl, rfl, rfl, rfl⟩
  | cons c y =>
    obtain ⟨hdigit, hother⟩ := hy c rfl
    simp only [List.mem_cons, List.not_mem_nil, or_false, not_or] at hother
    obtain ⟨hpoint, hminus, hplus, hlower, hupper, hi⟩ := hother
    refine ⟨?_, ?_, ?_, ?_, ?_⟩
    · simp [hdigit]
    · simp [fraction, hpoint]
    · simp [signText, hminus, hplus]
    · simp [exponent, hlower, hupper]
    · simp [hi]

theorem readsFront_digits : ReadsFront fun cs => cs.takeWhile Char.isDigit where
  starts cs := by
    induction cs with
    | nil => rfl
    | cons c cs ih =>
      by_cases hc : c.isDigit = true
      · simp [hc, ih]
      · simp [hc]
  plain cs c hc := by
    have hdigit := List.mem_takeWhile_imp hc
    by_contra h
    rw [isDigit_of_isDelimiter (Bool.of_not_eq_false h)] at hdigit
    exact Bool.noConfusion hdigit
  ends u x y h hy := by
    induction u with
    | nil =>
      have hnil : x.takeWhile Char.isDigit = [] := List.length_eq_zero_iff.mp (Nat.le_zero.mp h)
      exact (of_endsLiteral hy).1.trans hnil.symm
    | cons c u ih =>
      by_cases hc : c.isDigit = true
      · simp only [List.cons_append, List.takeWhile_cons_of_pos hc, List.length_cons] at h ih ⊢
        rw [ih (by omega)]
      · simp only [List.cons_append, List.takeWhile_cons_of_neg hc]

theorem readsFront_fraction : ReadsFront fraction where
  starts cs := by
    unfold fraction
    split
    · dsimp only
      split_ifs
      · rfl
      · exact congrArg _ (readsFront_digits.starts _)
    · rfl
  plain cs := by
    unfold fraction
    split
    · dsimp only
      split_ifs
      · simp [IsPlain]
      · exact isPlain_cons.mpr ⟨rfl, readsFront_digits.plain _⟩
    · simp [IsPlain]
  ends u x y h hy := by
    cases u with
    | nil =>
      have hnil : fraction x = [] := List.length_eq_zero_iff.mp (Nat.le_zero.mp h)
      exact (of_endsLiteral hy).2.1.trans hnil.symm
    | cons c u =>
      by_cases hc : c = '.'
      · subst hc
        have hdigits : ((u ++ x).takeWhile Char.isDigit).length ≤ u.length := by
          -- without a digit behind the point there is nothing to read
          cases hx : (u ++ x).takeWhile Char.isDigit with
          | nil => exact Nat.zero_le _
          | cons d ds => simpa [fraction, hx] using h
        have hsame := readsFront_digits.ends u x y hdigits hy
        simp only [List.cons_append, fraction, hsame]
      · simp [fraction, hc]

theorem readsFront_signText : ReadsFront signText where
  starts cs := by
    unfold signText
    split <;> rfl
  plain cs := by
    unfold signText
    split <;> simp [IsPlain, isDelimiter]
  ends u x y h hy := by
    cases u with
    | nil =>
      have hnil : signText x = [] := List.length_eq_zero_iff.mp (Nat.le_zero.mp h)
      exact (of_endsLiteral hy).2.2.1.trans hnil.symm
    | cons c u =>
      by_cases hminus : c = '-'
      · subst hminus
        rfl
      by_cases hplus : c = '+'
      · subst hplus
        rfl
      · simp [signText, hminus, hplus]

/-- The sign and the digits of an exponent. -/
theorem readsFront_signedDigits :
    ReadsFront fun cs =>
      signText cs ++ (cs.drop (signText cs).length).takeWhile Char.isDigit :=
  readsFront_signText.seq readsFront_digits

theorem length_signText_le (cs : List Char) : (signText cs).length ≤ 1 := by
  unfold signText
  split <;> simp

/-- An exponent ends where its sign and digits do; without digits it is not there. -/
theorem exponent_ends (h : (exponent (u ++ x)).length ≤ u.length) (hy : EndsLiteral y) :
    exponent (u ++ y) = exponent (u ++ x) := by
  cases u with
  | nil =>
    have hnil : exponent x = [] := List.length_eq_zero_iff.mp (Nat.le_zero.mp h)
    exact (of_endsLiteral hy).2.2.2.1.trans hnil.symm
  | cons c u =>
    obtain ⟨hnodigits, -, hnosign, -⟩ := of_endsLiteral hy
    rw [List.cons_append] at h ⊢
    rw [List.cons_append]
    -- the sign and the digits are the same if they end within `u`
    have hsame (hsign : (signText (u ++ x)).length ≤ u.length)
        (hdigits : (((u ++ x).drop (signText (u ++ x)).length).takeWhile Char.isDigit).length ≤
          u.length - (signText (u ++ x)).length) : exponent (c :: (u ++ y)) =
            exponent (c :: (u ++ x)) := by
      rw [List.drop_append_of_le_length hsign, ← List.length_drop] at hdigits
      have hsigns := readsFront_signText.ends u x y hsign hy
      have htails := readsFront_digits.ends _ x y hdigits hy
      simp only [exponent, hsigns, List.drop_append_of_le_length hsign, htails]
    cases hds : ((u ++ x).drop (signText (u ++ x)).length).takeWhile Char.isDigit with
    | nil =>
      cases u with
      | nil =>
        -- the other text ends directly behind the letter, and has no digits there either
        rw [List.nil_append] at hds
        simp [exponent, hds, hnosign, hnodigits]
      | cons d u =>
        have hsign := length_signText_le (d :: u ++ x)
        apply hsame
        · rw [List.length_cons]
          omega
        · rw [hds]
          exact Nat.zero_le _
    | cons d ds =>
      by_cases hletter : (c == 'e' || c == 'E') = true
      · have hlength : (signText (u ++ x)).length + (d :: ds).length ≤ u.length := by
          simp only [exponent, hletter, hds, Bool.true_and, List.isEmpty_cons, Bool.not_false,
            if_true, List.length_cons, List.length_append] at h ⊢
          omega
        apply hsame
        · omega
        · rw [hds]
          omega
      · simp [exponent, hletter]

theorem readsFront_exponent : ReadsFront exponent where
  starts cs := by
    cases cs with
    | nil => rfl
    | cons c cs =>
      simp only [exponent]
      split_ifs
      · exact congrArg _ (readsFront_signedDigits.starts cs)
      · rfl
  plain cs := by
    cases cs with
    | nil => simp [exponent, IsPlain]
    | cons c cs =>
      simp only [exponent]
      split_ifs with h
      · have hletter : c = 'e' ∨ c = 'E' := by simpa using (Bool.and_eq_true_iff.mp h).1
        refine isPlain_cons.mpr ⟨?_, readsFront_signedDigits.plain cs⟩
        rcases hletter with rfl | rfl <;> rfl
      · simp [IsPlain]
  ends _ _ _ := exponent_ends

theorem mantissa_eq (cs : List Char) :
    mantissa cs =
      let whole := cs.takeWhile Char.isDigit
      if whole.isEmpty then []
      else
        let rest := cs.drop whole.length
        whole ++ (fraction rest ++ exponent (rest.drop (fraction rest).length)) := by
  simp only [mantissa, List.append_assoc, List.drop_drop]

theorem readsFront_mantissa : ReadsFront mantissa := by
  have hall := readsFront_digits.seq (readsFront_fraction.seq readsFront_exponent)
  refine ⟨fun cs => ?_, fun cs => ?_, fun u x y h hy => ?_⟩
  · rw [mantissa_eq]
    dsimp only
    split_ifs
    · rfl
    · exact hall.starts cs
  · rw [mantissa_eq]
    dsimp only
    split_ifs
    · simp [IsPlain]
    · exact hall.plain cs
  · rw [mantissa_eq] at h ⊢
    rw [mantissa_eq]
    dsimp only at h ⊢
    by_cases hempty : (u ++ x).takeWhile Char.isDigit = []
    · have hbound : ((u ++ x).takeWhile Char.isDigit).length ≤ u.length := by
        rw [hempty]
        exact Nat.zero_le _
      rw [readsFront_digits.ends u x y hbound hy, hempty]
      rfl
    · have hnonempty : ((u ++ x).takeWhile Char.isDigit).isEmpty = false := by simpa using hempty
      rw [if_neg (Bool.eq_false_iff.mp hnonempty)] at h ⊢
      have hbound : ((u ++ x).takeWhile Char.isDigit).length ≤ u.length := by
        rw [List.length_append] at h
        omega
      have hwhole := readsFront_digits.ends u x y hbound hy
      rw [← hwhole] at hnonempty
      rw [if_neg (Bool.eq_false_iff.mp hnonempty)]
      exact hall.ends u x y h hy

theorem ofPrefix?_append (hy : EndsLiteral y) (cs : List Char) :
    ofPrefix? (cs ++ y) = ofPrefix? cs := by
  have hletter (cs : List Char) : ((cs ++ y).head? == some 'i') = (cs.head? == some 'i') := by
    cases cs with
    | nil => exact (of_endsLiteral hy).2.2.2.2
    | cons c cs => rfl
  unfold ofPrefix?
  simp only [readsFront_mantissa.append hy,
    List.drop_append_of_le_length (readsFront_mantissa.length_le cs), hletter]

/-- A literal that ends within `u` is read off every text that ends a literal behind `u`. -/
theorem ofPrefix?_of_endsLiteral {n : Literal} (h : ofPrefix? (u ++ x) = some n)
    (hn : n.text.length ≤ u.length) (hy : EndsLiteral y) : ofPrefix? (u ++ y) = some n := by
  unfold ofPrefix? at h ⊢
  dsimp only at h ⊢
  split_ifs at h with hempty
  obtain rfl := Option.some.inj h
  rw [text, List.length_append] at hn
  dsimp only at hn
  have hbound : (mantissa (u ++ x)).length ≤ u.length := by omega
  rw [readsFront_mantissa.ends u x y hbound hy, if_neg hempty]
  -- what is left to compare is the letter behind the digits
  rw [List.drop_append_of_le_length hbound] at hn ⊢
  rw [List.drop_append_of_le_length hbound]
  have hletter : ((u.drop (mantissa (u ++ x)).length ++ y).head? == some 'i') =
      ((u.drop (mantissa (u ++ x)).length ++ x).head? == some 'i') := by
    cases hrest : u.drop (mantissa (u ++ x)).length with
    | cons c rest => rfl
    | nil =>
      rw [hrest] at hn
      have hlength := congrArg List.length hrest
      rw [List.length_drop, List.length_nil] at hlength
      have hx : (x.head? == some 'i') = false := by
        apply Bool.eq_false_iff.mpr
        intro hi
        rw [List.nil_append, if_pos hi, List.length_singleton] at hn
        omega
      rw [List.nil_append, List.nil_append, hx, (of_endsLiteral hy).2.2.2.2]
  rw [hletter]

/-- The text of a literal stands at the front of the text it is read from. -/
theorem text_append_of_ofPrefix? {cs : List Char} {n : Literal} (h : ofPrefix? cs = some n) :
    n.text ++ cs.drop n.text.length = cs := by
  unfold ofPrefix? at h
  dsimp only at h
  split_ifs at h
  obtain rfl := Option.some.inj h
  have hstarts := readsFront_mantissa.starts cs
  cases hrest : cs.drop (mantissa cs).length with
  | nil => simpa [text, hrest] using hstarts
  | cons c rest =>
    rw [hrest] at hstarts
    by_cases hi : c = 'i'
    · have hdrop : cs.drop ((mantissa cs).length + 1) = rest := by
        rw [← List.drop_drop, hrest]
        rfl
      simp only [text, List.head?_cons, hi, beq_self_eq_true, if_true, List.length_append,
        List.length_cons, List.length_nil, hdrop]
      rw [hi] at hstarts
      simpa using hstarts
    · simpa [text, hi, hrest] using hstarts

theorem isPlain_text_of_ofPrefix? {cs : List Char} {n : Literal} (h : ofPrefix? cs = some n) :
    IsPlain n.text := by
  unfold ofPrefix? at h
  dsimp only at h
  split_ifs at h
  obtain rfl := Option.some.inj h
  refine isPlain_append.mpr ⟨readsFront_mantissa.plain cs, ?_⟩
  dsimp only
  split_ifs
  · exact isPlain_cons.mpr ⟨rfl, by simp [IsPlain]⟩
  · simp [IsPlain]

end Literal

end FormulaCalculus
