import FormulaCalculus.Proofs.Decimal.Grammar
import FormulaCalculus.Proofs.Token.LiteralText
import FormulaCalculus.Scalar.Double

/-!
The digits of a literal. They are the longest text in front of the input that is digits, a fraction
or nothing, and an exponent or nothing: what is incomplete does not belong to the literal, and no
reading of the rest could have made it longer. All such texts are numerals.
-/

namespace FormulaCalculus

open Numeral (IsDigits IsSign IsExponent)

namespace Numeral

/-- A numeral that starts with a digit has no sign and is no word. -/
theorem parse?_of_isDigit {c : Char} {cs : List Char} (hc : c.isDigit = true) :
    parse? (c :: cs) = unsigned? false (c :: cs) := by
  -- a word starts with a letter, and so differs from the numeral in its first character
  have hword (w : Char) (ws : List Char) (hw : w.isDigit = false) :
      (c :: cs).map Char.toLower ≠ w :: ws := by
    intro heq
    rw [List.map_cons, toLower_of_isDigit hc] at heq
    obtain rfl := (List.cons.inj heq).1
    rw [hc] at hw
    nomatch hw
  have hsign : sign (c :: cs) = (false, c :: cs) := sign_of_not_sign (not_sign_of_isDigit hc)
  have hnan : (c :: cs).map Char.toLower ≠ "nan".toList := hword 'n' _ (by decide)
  have hinf : (c :: cs).map Char.toLower ≠ "inf".toList := hword 'i' _ (by decide)
  have hinfinity : (c :: cs).map Char.toLower ≠ "infinity".toList := hword 'i' _ (by decide)
  simp only [parse?, hsign, hnan, hinf, hinfinity, decide_false, Bool.or_self, if_false,
    Bool.false_eq_true]

theorem exists_of_unsigned? {negative : Bool} {cs : List Char} {n : Numeral}
    (h : unsigned? negative cs = some n) : ∃ m k, n = decimal negative m k := by
  unfold unsigned? at h
  dsimp only at h
  obtain ⟨-, h⟩ := Option.ite_none_left_eq_some.mp h
  obtain ⟨k, _, rfl⟩ := Option.map_eq_some_iff.mp h
  exact ⟨_, _, rfl⟩

theorem exists_of_isDigit {c : Char} {cs : List Char} {n : Numeral} (hc : c.isDigit = true)
    (h : parse? (c :: cs) = some n) : ∃ m k, n = decimal false m k :=
  exists_of_unsigned? ((parse?_of_isDigit hc).symm.trans h)

end Numeral

namespace Literal

/-! ### The longest text of a form -/

/-- Whether a text is one of the first form and behind it one of the second. -/
def Followed (A B : List Char → Prop) (cs : List Char) : Prop := ∃ x y, cs = x ++ y ∧ A x ∧ B y

/-- Whether a reading finds the longest text of a form: if any text of the form stands in front,
what is read has the form, and goes at least as far. -/
def ReadsLongest (A : List Char → Prop) (f : List Char → List Char) : Prop :=
  ∀ cs t, A t → t <+: cs → A (f cs) ∧ t <+: f cs

section Followed

variable {A B : List Char → Prop} {f g : List Char → List Char} {cs x y : List Char}

/-- Of two forms one behind the other, each part is read as far as it goes. A shorter first part
would have to be followed by what it was cut off from, and no text of the second form starts so. -/
theorem ReadsLongest.both (hf : ReadsLongest A f) (hg : ReadsLongest B g) (hfront : ReadsFront f)
    (hcut : ∀ x c w y, A x → A (x ++ c :: w) → ¬ B (c :: y)) (hx : A x) (hy : B y)
    (h : x ++ y <+: cs) :
    A (f cs) ∧ B (g (cs.drop (f cs).length)) ∧ x ++ y <+: f cs ++ g (cs.drop (f cs).length) := by
  obtain ⟨hfx, w, hw⟩ := hf cs x hx ((List.prefix_append x y).trans h)
  obtain ⟨z, hz⟩ := h
  have hstarts := hfront.starts cs
  generalize cs.drop (f cs).length = rest at hstarts ⊢
  have hwhole : x ++ (y ++ z) = x ++ (w ++ rest) := by
    rw [← List.append_assoc, hz, ← List.append_assoc, hw, hstarts]
  have hrest : y ++ z = w ++ rest := List.append_cancel_left hwhole
  cases w with
  | nil =>
    rw [List.append_nil] at hw
    obtain ⟨hgy, hle⟩ := hg rest y hy ⟨z, hrest⟩
    rw [← hw] at hfx ⊢
    exact ⟨hfx, hgy, List.prefix_append_right_inj x |>.mpr hle⟩
  | cons c w =>
    cases y with
    | nil =>
      obtain ⟨hgy, -⟩ := hg rest [] hy List.nil_prefix
      rw [List.append_nil]
      exact ⟨hfx, hgy, (List.prefix_append x (c :: w)).trans (hw ▸ List.prefix_append _ _)⟩
    | cons d y =>
      obtain rfl : d = c := (List.cons.inj hrest).1
      rw [← hw] at hfx
      exact absurd hy (hcut x d w y hx hfx)

theorem ReadsLongest.followed (hf : ReadsLongest A f) (hg : ReadsLongest B g)
    (hfront : ReadsFront f) (hcut : ∀ x c w y, A x → A (x ++ c :: w) → ¬ B (c :: y)) :
    ReadsLongest (Followed A B) fun cs => f cs ++ g (cs.drop (f cs).length) := by
  rintro cs t ⟨x, y, rfl, hx, hy⟩ h
  obtain ⟨hA, hB, hle⟩ := hf.both hg hfront hcut hx hy h
  exact ⟨⟨_, _, rfl, hA, hB⟩, hle⟩

end Followed

/-! ### The parts of a literal -/

/-- Whether a text is nothing, or a point and digits. -/
inductive IsFraction : List Char → Prop
  | absent : IsFraction []
  | places {ds : List Char} (hds : IsDigits ds) : IsFraction ('.' :: ds)

/-- Whether a text is what the digits of a literal can be: digits, behind them a fraction or
nothing, and behind that an exponent or nothing. -/
def IsMantissa : List Char → Prop := Followed IsDigits (Followed IsFraction IsExponent)

variable {cs : List Char} {l : Literal}

theorem readsLongest_digits : ReadsLongest IsDigits fun cs => cs.takeWhile Char.isDigit := by
  rintro cs t ⟨hne, ht⟩ ⟨z, rfl⟩
  have htake : (t ++ z).takeWhile Char.isDigit = t ++ z.takeWhile Char.isDigit :=
    List.takeWhile_append_of_pos ht
  dsimp only
  rw [htake]
  refine ⟨⟨List.append_ne_nil_of_left_ne_nil hne _, ?_⟩, List.prefix_append t _⟩
  intro c hc
  rcases List.mem_append.mp hc with hc | hc
  · exact ht c hc
  · exact List.mem_takeWhile_imp hc

theorem isSign_signText (cs : List Char) : IsSign (signText cs) := by
  unfold signText
  split
  · exact .minus
  · exact .plus
  · exact .absent

theorem readsLongest_sign : ReadsLongest IsSign signText := by
  intro cs t ht h
  refine ⟨isSign_signText cs, ?_⟩
  obtain ⟨z, rfl⟩ := h
  cases ht with
  | absent => exact List.nil_prefix
  | minus | plus => exact List.prefix_rfl

theorem isFraction_fraction (cs : List Char) : IsFraction (fraction cs) := by
  unfold fraction
  split
  · dsimp only
    split_ifs with hempty
    · exact .absent
    · exact .places ⟨by simpa using hempty, fun c => List.mem_takeWhile_imp⟩
  · exact .absent

theorem readsLongest_fraction : ReadsLongest IsFraction fraction := by
  intro cs t ht h
  refine ⟨isFraction_fraction cs, ?_⟩
  cases ht with
  | absent => exact List.nil_prefix
  | @places ds hds =>
    obtain ⟨z, rfl⟩ := h
    obtain ⟨hread, hle⟩ := readsLongest_digits (ds ++ z) ds hds (List.prefix_append ds z)
    have hne : ((ds ++ z).takeWhile Char.isDigit).isEmpty = false := by simpa using hread.1
    rw [List.cons_append, fraction, hne]
    exact List.cons_prefix_cons.mpr ⟨rfl, hle⟩

theorem isExponent_exponent (cs : List Char) : IsExponent (exponent cs) := by
  unfold exponent
  split
  · dsimp only
    split_ifs with h
    · simp only [Bool.and_eq_true, Bool.or_eq_true, beq_iff_eq, Bool.not_eq_true',
        List.isEmpty_eq_false_iff] at h
      exact .power h.1 (isSign_signText _) ⟨h.2, fun c => List.mem_takeWhile_imp⟩
    · exact .absent
  · exact .absent

/-- No digits start with a sign. -/
theorem sign_cut (x : List Char) (c : Char) (w y : List Char) (hx : IsSign x)
    (h : IsSign (x ++ c :: w)) : ¬ IsDigits (c :: y) := by
  intro hy
  have hc := hy.2 c List.mem_cons_self
  cases hx <;> cases h <;> nomatch hc

theorem readsLongest_exponent : ReadsLongest IsExponent exponent := by
  intro cs t ht h
  refine ⟨isExponent_exponent cs, ?_⟩
  cases ht with
  | absent => exact List.nil_prefix
  | @power c s ds hc hs hds =>
    obtain ⟨z, rfl⟩ := h
    obtain ⟨-, hread, hle⟩ := readsLongest_sign.both readsLongest_digits readsFront_signText
      sign_cut hs hds (List.prefix_append (s ++ ds) z)
    have hletter : (c == 'e' || c == 'E') = true := by simpa using hc
    have hne := List.isEmpty_eq_false_iff.mpr hread.1
    rw [List.cons_append]
    simp only [exponent, hletter, hne]
    exact List.cons_prefix_cons.mpr ⟨rfl, hle⟩

/-- No exponent starts with what a fraction goes on with. -/
theorem fraction_cut (x : List Char) (c : Char) (w y : List Char) (hx : IsFraction x)
    (h : IsFraction (x ++ c :: w)) : ¬ IsExponent (c :: y) := by
  intro hy
  obtain ⟨hdigit, hpoint⟩ := hy.head c rfl
  cases hx with
  | absent =>
    cases h
    exact hpoint rfl
  | @places ds hds =>
    cases h with
    | places hmore =>
      have hc := hmore.2 c (List.mem_append_right ds List.mem_cons_self)
      rw [hdigit] at hc
      nomatch hc

/-- Neither a fraction nor an exponent starts with a digit. -/
theorem digits_cut (x : List Char) (c : Char) (w y : List Char) (_ : IsDigits x)
    (h : IsDigits (x ++ c :: w)) : ¬ Followed IsFraction IsExponent (c :: y) := by
  rintro ⟨fs, es, hsplit, hfs, hes⟩
  have hc := h.2 c (List.mem_append_right x List.mem_cons_self)
  cases hfs with
  | absent =>
    have hdigit := (hes.head c (by rw [← List.nil_append es, ← hsplit]; rfl)).1
    rw [hdigit] at hc
    nomatch hc
  | places hds =>
    obtain rfl := (List.cons.inj hsplit).1
    nomatch hc

/-- The digits of a literal go on as far as they can. -/
theorem readsLongest_mantissa : ReadsLongest IsMantissa mantissa := by
  have hparts : ReadsLongest IsMantissa _ := readsLongest_digits.followed
    (readsLongest_fraction.followed readsLongest_exponent readsFront_fraction fraction_cut)
    readsFront_digits digits_cut
  intro cs t ht h
  -- where there is a literal there are digits, and the digits are read
  obtain ⟨ds, rest, rfl, hds, -⟩ := id ht
  obtain ⟨hread, -⟩ := readsLongest_digits cs ds hds ((List.prefix_append ds rest).trans h)
  have hne := List.isEmpty_eq_false_iff.mpr hread.1
  rw [mantissa_eq]
  simp only [hne]
  exact hparts cs _ ht h

/-! ### Literals -/

theorem isMantissa_singleton {c : Char} (hc : c.isDigit = true) : IsMantissa [c] :=
  ⟨[c], [], rfl, ⟨List.cons_ne_nil c [], List.forall_mem_singleton.mpr hc⟩, [], [], rfl, .absent,
    .absent⟩

theorem IsMantissa.exists_digit {t : List Char} (h : IsMantissa t) :
    ∃ c ds, t = c :: ds ∧ c.isDigit = true := by
  obtain ⟨ds, rest, rfl, hds, -⟩ := h
  obtain ⟨c, ds, rfl, hc⟩ := hds.exists_cons
  exact ⟨c, _, rfl, hc⟩

/-- What the digits of a literal can be is a numeral. -/
theorem IsMantissa.grammatical {t : List Char} (h : IsMantissa t) : Numeral.Grammatical t := by
  obtain ⟨ds, rest, rfl, hds, fs, es, rfl, hfs, hes⟩ := h
  refine ⟨[], _, rfl, .absent, Or.inr ⟨ds ++ fs, es, (List.append_assoc ds fs es).symm, ?_, hes⟩⟩
  cases hfs with
  | absent =>
    rw [List.append_nil]
    exact .whole hds
  | places hfs => exact .behind hds hfs.2

/-- The text of the form that goes furthest of those in front of the input. -/
structure LongestInFront (A : List Char → Prop) (cs t : List Char) : Prop where
  form : A t
  front : t <+: cs
  longest : ∀ u, A u → u <+: cs → u.length ≤ t.length

theorem LongestInFront.unique {A : List Char → Prop} {t u : List Char} (ht : LongestInFront A cs t)
    (hu : LongestInFront A cs u) : t = u := by
  have hlength := Nat.le_antisymm (hu.longest t ht.form ht.front) (ht.longest u hu.form hu.front)
  exact (List.prefix_of_prefix_length_le ht.front hu.front hlength.le).eq_of_length hlength

theorem mantissa_front (cs : List Char) : mantissa cs <+: cs := ⟨_, readsFront_mantissa.starts cs⟩

/-- Only a digit starts a literal. -/
theorem mantissa_ne_nil_iff : mantissa cs ≠ [] ↔ ∃ c ∈ cs.head?, c.isDigit = true := by
  constructor
  · intro h
    cases cs with
    | nil => exact absurd rfl h
    | cons c cs =>
      refine ⟨c, rfl, ?_⟩
      by_contra hc
      apply h
      rw [mantissa, List.takeWhile_cons_of_neg hc]
      rfl
  · rintro ⟨c, hc, hdigit⟩ hnil
    have hfront : [c] <+: cs := ⟨cs.tail, (List.eq_cons_of_mem_head? hc).symm⟩
    obtain ⟨-, hle⟩ := readsLongest_mantissa cs [c] (isMantissa_singleton hdigit) hfront
    rw [hnil] at hle
    exact List.cons_ne_nil c [] (List.prefix_nil.mp hle)

theorem mantissa_eq_iff {t : List Char} (ht : t ≠ []) :
    mantissa cs = t ↔ LongestInFront IsMantissa cs t := by
  have hfound {u : List Char} (hu : IsMantissa u) (h : u <+: cs) :
      LongestInFront IsMantissa cs (mantissa cs) :=
    ⟨(readsLongest_mantissa cs u hu h).1, mantissa_front cs,
      fun v hv hle => (readsLongest_mantissa cs v hv hle).2.length_le⟩
  constructor
  · rintro rfl
    obtain ⟨c, hc, hdigit⟩ := mantissa_ne_nil_iff.mp ht
    exact hfound (isMantissa_singleton hdigit) ⟨cs.tail, (List.eq_cons_of_mem_head? hc).symm⟩
  · intro h
    exact (hfound h.form h.front).unique h

theorem ofPrefix?_eq_some_iff : ofPrefix? cs = some l ↔
    LongestInFront IsMantissa cs l.digits ∧
      (l.imaginary = true ↔ (cs.drop l.digits.length).head? = some 'i') := by
  obtain ⟨digits, imaginary⟩ := l
  rw [ofPrefix?]
  constructor
  · intro h
    obtain ⟨hne, h⟩ := Option.ite_none_left_eq_some.mp h
    obtain ⟨rfl, rfl⟩ := Literal.mk.inj (Option.some.inj h)
    exact ⟨(mantissa_eq_iff (by simpa using hne)).mp rfl, beq_iff_eq⟩
  · rintro ⟨hlongest, himaginary⟩
    dsimp only at hlongest himaginary
    obtain ⟨c, ds, rfl, -⟩ := hlongest.form.exists_digit
    have hdigits : mantissa cs = c :: ds := (mantissa_eq_iff (List.cons_ne_nil c ds)).mpr hlongest
    have hletter : ((cs.drop (c :: ds).length).head? == some 'i') = imaginary := by
      rw [Bool.eq_iff_iff, beq_iff_eq, himaginary]
    simp only [hdigits, hletter]
    rfl

theorem exists_digit (h : ofPrefix? cs = some l) :
    ∃ c ds, l.digits = c :: ds ∧ c.isDigit = true :=
  (ofPrefix?_eq_some_iff.mp h).1.form.exists_digit

/-- What is taken for a literal is never refused as a numeral. -/
theorem exists_constant? {α : Type} [Scalar α] (h : ofPrefix? cs = some l) :
    ∃ c, (l.constant? : Option (Constant α)) = some c := by
  have hgrammatical := (ofPrefix?_eq_some_iff.mp h).1.form.grammatical
  obtain ⟨n, hn⟩ := Numeral.parse?_isSome_iff.mpr hgrammatical
  unfold constant?
  rw [hn]
  exact ⟨_, rfl⟩

/-- A literal is recognised exactly where a digit stands in front, and reaches as far as its form
allows. Whatever is recognised is a numeral and stands for a constant, which is read wherever no
variable is. -/
theorem ofPrefix?_recognises {α : Type} [Scalar α] (cs : List Char) :
    ((∃ l, ofPrefix? cs = some l) ↔ ∃ c ∈ cs.head?, c.isDigit = true) ∧
      ∀ l, ofPrefix? cs = some l →
        l.text ++ cs.drop l.text.length = cs ∧ LongestInFront IsMantissa cs l.digits ∧
          (l.imaginary = true ↔ (cs.drop l.digits.length).head? = some 'i') ∧
            Numeral.Grammatical l.digits ∧ ∃ c : Constant α, l.constant? = some c ∧
              ∀ lexicon : Lexicon, lexicon.longestVariable? cs = none →
                lexicon.operand cs = .ok (.constant c, l.text) := by
  constructor
  · rw [← mantissa_ne_nil_iff]
    constructor
    · rintro ⟨l, h⟩ hnil
      rw [ofPrefix?, hnil] at h
      nomatch h
    · intro hne
      refine ⟨⟨mantissa cs, (cs.drop (mantissa cs).length).head? == some 'i'⟩, ?_⟩
      exact ofPrefix?_eq_some_iff.mpr ⟨(mantissa_eq_iff hne).mp rfl, beq_iff_eq⟩
  · intro l h
    obtain ⟨hlongest, himaginary⟩ := ofPrefix?_eq_some_iff.mp h
    obtain ⟨c, hc⟩ := exists_constant? (α := α) h
    refine ⟨text_append_of_ofPrefix? h, hlongest, himaginary, hlongest.form.grammatical, c, hc, ?_⟩
    intro lexicon hvariable
    simp only [Lexicon.operand, hvariable, h, hc]

/-- The literal in front of `2.50e+i`: its exponent has no digits, so it ends before the letter. -/
theorem ofPrefix?_recognises_incomplete :
    let cs := "2.50e+i".toList
    ∃ l, ofPrefix? cs = some l ∧ l.digits = "2.50".toList ∧ l.imaginary = false ∧
      LongestInFront IsMantissa cs l.digits ∧ Numeral.Grammatical l.digits ∧
        ∃ c : Constant Double, l.constant? = some c := by
  intro cs
  have h : ofPrefix? cs = some ⟨"2.50".toList, false⟩ := by decide
  obtain ⟨-, hall⟩ := ofPrefix?_recognises (α := Double) cs
  obtain ⟨-, hlongest, -, hgrammatical, c, hc, -⟩ := hall _ h
  exact ⟨_, h, rfl, rfl, hlongest, hgrammatical, c, hc⟩

end Literal

end FormulaCalculus
