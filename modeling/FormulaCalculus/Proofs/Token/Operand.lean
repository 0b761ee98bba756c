import Mathlib
import FormulaCalculus.Proofs.Token.LongestName
import FormulaCalculus.Proofs.Token.Numeral

/-!
Names and numerals as operands. In front of a sign, a delimiter or the end of the text a declared
name is read as the variable, and a numeral as its constant: no operator, function or other variable
takes a part of either.
-/

namespace FormulaCalculus

open Lexicon

/-- Whether an operand can end in front of a text. -/
def Stops (cs : List Char) : Prop := ∀ c ∈ cs.head?, isDelimiter c = true ∨ isSign c = true

/-- Whether a text can be the name of a variable: it starts with no digit, has no blank, delimiter
or sign, and is not the name of a function. -/
structure IsName (n : String) : Prop where
  chars : ∀ c ∈ n.toList, isDelimiter c = false ∧ isSign c = false ∧ isBlank c = false
  starts : ∃ c cs, n.toList = c :: cs ∧ c.isDigit = false
  ne_function : ∀ s ∈ standardFunctions, s.spelling ≠ n

theorem IsName.isPlain {n : String} (h : IsName n) : IsPlain n.toList :=
  fun c hc => (h.chars c hc).1

/-- The delimiters, signs and blanks. -/
def reserved : List Char := ['(', ')', ',', '^', '*', '/', '+', '-', ' ', '\t', '\r', '\n']

/-- A character of a class without reserved characters is not reserved. -/
theorem not_reserved {p : Char → Bool} (hp : reserved.all (fun d => !p d) = true) {c : Char}
    (hc : p c = true) : isDelimiter c = false ∧ isSign c = false ∧ isBlank c = false := by
  have hnot : c ∉ reserved := by
    intro hmem
    have hother := List.all_eq_true.mp hp c hmem
    rw [hc] at hother
    exact Bool.noConfusion hother
  refine ⟨Bool.eq_false_iff.mpr ?_, Bool.eq_false_iff.mpr ?_, Bool.eq_false_iff.mpr ?_⟩
  · intro h
    rcases isDelimiter_iff.mp h with rfl | rfl | rfl <;> exact hnot (by decide)
  · intro h
    simp only [isSign, Bool.or_eq_true, beq_iff_eq] at h
    rcases h with (((rfl | rfl) | rfl) | rfl) | rfl <;> exact hnot (by decide)
  · intro h
    simp only [isBlank, Bool.or_eq_true, beq_iff_eq] at h
    rcases h with ((rfl | rfl) | rfl) | rfl <;> exact hnot (by decide)

/-- A word of letters, digits and underscores that starts with a letter is a name, unless it is the
name of a function. -/
theorem isName_of_word {n : String}
    (hchars : ∀ c ∈ n.toList, c.isAlphanum = true ∨ c = '_')
    (hstarts : ∃ c cs, n.toList = c :: cs ∧ c.isAlpha = true)
    (hfunction : ∀ s ∈ standardFunctions, s.spelling ≠ n) : IsName n where
  chars c hc := by
    rcases hchars c hc with hword | rfl
    · exact not_reserved (by decide) hword
    · decide
  starts := by
    obtain ⟨c, cs, hn, halpha⟩ := hstarts
    refine ⟨c, cs, hn, Bool.eq_false_iff.mpr fun hdigit => ?_⟩
    simp only [Char.isAlpha, Char.isUpper, Char.isLower, Char.isDigit, Bool.or_eq_true,
      Bool.and_eq_true, decide_eq_true_eq, ge_iff_le, UInt32.le_iff_toNat_le] at halpha hdigit
    have hnine : '9'.val.toNat = 57 := rfl
    have hupper : 'A'.val.toNat = 65 := rfl
    have hlower : 'a'.val.toNat = 97 := rfl
    omega
  ne_function := hfunction

/-- What can stand behind an operand is in no spelling that has neither delimiters nor signs. -/
theorem isPrefixOf_append_of_stops {p rest : List Char}
    (hp : ∀ c ∈ p, isDelimiter c = false ∧ isSign c = false) (hrest : Stops rest) (cs : List Char) :
    p.isPrefixOf (cs ++ rest) = p.isPrefixOf cs := by
  cases rest with
  | nil => rw [List.append_nil]
  | cons d more =>
    apply isPrefixOf_append_of_not_mem
    intro hmem
    obtain ⟨hdelimiter, hsign⟩ := hp d hmem
    rcases hrest d rfl with h | h
    · rw [hdelimiter] at h
      exact Bool.noConfusion h
    · rw [hsign] at h
      exact Bool.noConfusion h

section Longest

variable {names : List String} {n : String} {rest : List Char}

/-- Where an operand can end behind a declared name, no declared name is longer. -/
theorem longestVariable?_name (hnames : ∀ m ∈ names, IsName m) (hn : n ∈ names)
    (hrest : Stops rest) :
    (standard.withVariables names).longestVariable? (n.toList ++ rest) = some n := by
  have hbuilt : (standard.withVariables names).Built := by
    rw [withVariables_eq_extend]
    exact standard_built.extend _
  apply hbuilt.inOrder.longestVariable?_eq_some_iff.mpr
  refine ⟨mem_variableNames_withVariables.mpr (Or.inl hn),
    List.isPrefixOf_iff_prefix.mpr (List.prefix_append _ _), ?_⟩
  intro m hm hfront
  -- a name that starts the text starts the declared name
  have hname := hnames m
    ((mem_variableNames_withVariables.mp hm).resolve_right List.not_mem_nil)
  rw [isPrefixOf_append_of_stops (fun c hc => ⟨(hname.chars c hc).1, (hname.chars c hc).2.1⟩)
    hrest] at hfront
  rcases (utf8ByteSize_le_of_isPrefixOf hfront).lt_or_eq with hlt | heq
  · exact Or.inr hlt
  · exact Or.inl (eq_of_isPrefixOf_of_utf8ByteSize_le hfront heq.ge)

end Longest

section Functions

variable {names : List String} {cs : List Char}

theorem standardFunctions_chars {s : Spelled Function} (hs : s ∈ standardFunctions) :
    ∀ c ∈ s.spelling.toList, isDelimiter c = false ∧ isSign c = false := by
  have hall : s.spelling.toList.all (fun c => !isDelimiter c && !isSign c) = true := by
    revert s
    decide
  simpa using hall

/-- A text that starts neither with a sign nor with a function longer than its longest variable is
an operand. -/
theorem nextToken_operand {α : Type} [Scalar α] {c : Char} (hdelimiter : isDelimiter c = false)
    (hsign : isSign c = false)
    (hfunction : ∀ s ∈ standardFunctions, s.isPrefixOf (c :: cs) = true →
      s.spelling.utf8ByteSize < (((standard.withVariables names).longestVariable?
        (c :: cs)).map String.utf8ByteSize).getD 0) (last : TokenId) :
    (standard.withVariables names).nextToken (α := α) last (c :: cs) =
      (standard.withVariables names).operand (c :: cs) := by
  obtain ⟨hunary, hbinary⟩ := noOperator names hsign last cs
  have hcallable : (standard.withVariables names).callable? (c :: cs) = .ok none := by
    unfold callable?
    dsimp only
    rw [withVariables_functions, List.find?_eq_none.mpr]
    intro s hs hfront
    obtain ⟨hstarts, hleast⟩ := Bool.and_eq_true_iff.mp hfront
    have hshorter := hfunction s hs hstarts
    have hlonger := of_decide_eq_true hleast
    omega
  rw [nextToken_cons_of_plain hdelimiter, word, hunary, hbinary, hcallable]
  rfl

end Functions

section Names

variable {α : Type} [Scalar α] {names : List String} {n : String} {rest : List Char}

theorem nextToken_name (hnames : ∀ m ∈ names, IsName m) (hn : n ∈ names) (hrest : Stops rest)
    (last : TokenId) :
    (standard.withVariables names).nextToken (α := α) last (n.toList ++ rest) =
      .ok (.variableName n, n.toList) := by
  have hname := hnames n hn
  have hlongest := longestVariable?_name hnames hn hrest
  -- A function whose name starts the text starts the variable, and is not the whole of it.
  have hfunction : ∀ s ∈ standardFunctions, s.isPrefixOf (n.toList ++ rest) = true →
      s.spelling.utf8ByteSize < n.utf8ByteSize := by
    intro s hs hfront
    rw [Spelled.isPrefixOf, isPrefixOf_append_of_stops (standardFunctions_chars hs) hrest] at hfront
    by_contra hsize
    have hsame := eq_of_isPrefixOf_of_utf8ByteSize_le hfront (by omega)
    exact hname.ne_function s hs hsame
  have hread : (standard.withVariables names).operand (α := α) (n.toList ++ rest) =
      .ok (.variableName n, n.toList) := by
    rw [operand, hlongest]
  obtain ⟨c, cs, hspelling, -⟩ := hname.starts
  obtain ⟨hdelimiter, hsign, -⟩ := hname.chars c (by rw [hspelling]; exact List.mem_cons_self)
  rw [hspelling, List.cons_append] at hlongest hfunction hread ⊢
  rw [nextToken_operand hdelimiter hsign ?_ last, hread]
  rw [hlongest]
  exact hfunction

end Names

/-- Whether a text is digits with at most one point, which has digits on both sides. -/
def IsNumeral (cs : List Char) : Prop :=
  ∃ whole fraction : List Char, whole ≠ [] ∧ (∀ c ∈ whole, c.isDigit = true) ∧
    (∀ c ∈ fraction, c.isDigit = true) ∧
    cs = whole ++ if fraction.isEmpty then [] else '.' :: fraction

theorem of_isDigit {c : Char} (hc : c.isDigit = true) :
    isDelimiter c = false ∧ isSign c = false ∧ isBlank c = false :=
  not_reserved (by decide) hc

theorem IsNumeral.exists_digit {cs : List Char} (h : IsNumeral cs) :
    ∃ d ds, cs = d :: ds ∧ d.isDigit = true := by
  obtain ⟨whole, fraction, hne, hwhole, -, rfl⟩ := h
  obtain ⟨d, ds, rfl⟩ := List.exists_cons_of_ne_nil hne
  exact ⟨d, _, rfl, hwhole d List.mem_cons_self⟩

theorem IsNumeral.isPlain {cs : List Char} (h : IsNumeral cs) : IsPlain cs := by
  obtain ⟨whole, fraction, -, hwhole, hfraction, rfl⟩ := h
  refine isPlain_append.mpr ⟨fun c hc => (of_isDigit (hwhole c hc)).1, ?_⟩
  split
  · exact fun c hc => absurd hc List.not_mem_nil
  · exact isPlain_cons.mpr ⟨by decide, fun c hc => (of_isDigit (hfraction c hc)).1⟩

theorem Stops.ends {rest : List Char} (h : Stops rest) :
    (∀ c ∈ rest.head?, c.isDigit = false) ∧ Literal.fraction rest = [] ∧
      Literal.exponent rest = [] ∧ (rest.head? == some 'i') = false := by
  cases rest with
  | nil => exact ⟨by simp, rfl, rfl, rfl⟩
  | cons c rest =>
    have hc : c = '(' ∨ c = ')' ∨ c = ',' ∨ c = '^' ∨ c = '*' ∨ c = '/' ∨ c = '+' ∨ c = '-' := by
      have hstop := h c rfl
      simpa [isDelimiter, isSign, or_assoc] using hstop
    rcases hc with rfl | rfl | rfl | rfl | rfl | rfl | rfl | rfl <;>
      exact ⟨by simp, rfl, rfl, rfl⟩

namespace Literal

/-- A numeral is read to its end. -/
theorem ofPrefix?_numeral {cs rest : List Char} (hcs : IsNumeral cs) (hrest : Stops rest) :
    ofPrefix? (cs ++ rest) = some ⟨cs, false⟩ := by
  obtain ⟨whole, fraction, hne, hwhole, hfraction, rfl⟩ := hcs
  obtain ⟨hdigit, hpoint, hexponent, himaginary⟩ := hrest.ends
  have hnonempty : whole.isEmpty = false := by simpa using hne
  have hmantissa : mantissa (whole ++ (if fraction.isEmpty then [] else '.' :: fraction) ++ rest) =
      whole ++ if fraction.isEmpty then [] else '.' :: fraction := by
    cases hempty : fraction.isEmpty with
    | true =>
      simp only [if_true, List.append_nil]
      simp only [mantissa, takeWhile_isDigit_append hwhole hdigit, hnonempty, List.drop_left,
        hpoint, List.length_nil, Nat.add_zero, hexponent, List.append_nil]
      rfl
    | false =>
      have htake : (whole ++ ('.' :: fraction ++ rest)).takeWhile Char.isDigit = whole :=
        takeWhile_isDigit_append hwhole (by simp)
      have hbehind : Literal.fraction ('.' :: fraction ++ rest) = '.' :: fraction := by
        simp only [List.cons_append, Literal.fraction, takeWhile_isDigit_append hfraction hdigit,
          hempty]
        rfl
      have hdrop : (whole ++ ('.' :: fraction ++ rest)).drop
          (whole.length + ('.' :: fraction).length) = rest := by
        rw [← List.drop_drop, List.drop_left, List.drop_left]
      simp only [Bool.false_eq_true, if_false, List.append_assoc]
      simp only [mantissa, htake, hnonempty, List.drop_left, hbehind, hdrop, hexponent,
        List.append_nil]
      rfl
  have hdigits : (whole ++ if fraction.isEmpty then [] else '.' :: fraction).isEmpty = false := by
    simp [hne]
  simp only [ofPrefix?, hmantissa, hdigits, List.drop_left, himaginary]
  rfl

end Literal

section Numerals

variable {α : Type} [Scalar α] {names : List String} {cs rest : List Char} {c : Constant α}

/-- A numeral is read as the constant it stands for: no name and no function starts with a digit. -/
theorem nextToken_numeral (hnames : ∀ m ∈ names, IsName m) (hcs : IsNumeral cs)
    (hconstant : (⟨cs, false⟩ : Literal).constant? = some c) (hrest : Stops rest)
    (last : TokenId) :
    (standard.withVariables names).nextToken last (cs ++ rest) = .ok (.constant c, cs) := by
  have hliteral := Literal.ofPrefix?_numeral hcs hrest
  obtain ⟨d, ds, hspelling, hdigit⟩ := hcs.exists_digit
  -- Names of variables and functions start with no digit.
  have hstarts {s : String} (hs : ∃ e es, s.toList = e :: es ∧ e.isDigit = false) :
      s.toList.isPrefixOf (cs ++ rest) = false := by
    obtain ⟨e, es, hs, he⟩ := hs
    have hne : e ≠ d := by
      rintro rfl
      rw [hdigit] at he
      exact Bool.noConfusion he
    rw [hs, hspelling, List.cons_append, List.isPrefixOf_cons_cons, beq_eq_false_iff_ne.mpr hne]
    rfl
  have hnone : (standard.withVariables names).longestVariable? (cs ++ rest) = none := by
    refine List.find?_eq_none.mpr fun m hm => ?_
    have hmem := (mem_variableNames_withVariables.mp hm).resolve_right List.not_mem_nil
    rw [hstarts (hnames m hmem).starts]
    exact Bool.false_ne_true
  have hfunction : ∀ s ∈ standardFunctions, s.isPrefixOf (cs ++ rest) = false := by
    intro s hs
    obtain ⟨e, es, hs, -, -, -, he⟩ := standardFunctions_spelling hs
    exact hstarts ⟨e, es, hs, he⟩
  have hread : (standard.withVariables names).operand (cs ++ rest) = .ok (.constant c, cs) := by
    simp [operand, hnone, hliteral, hconstant, Literal.text]
  obtain ⟨hdelimiter, hsign, -⟩ := of_isDigit hdigit
  rw [hspelling, List.cons_append] at hfunction hread ⊢
  rw [nextToken_operand hdelimiter hsign ?_ last, hread]
  intro s hs hfront
  rw [hfunction s hs] at hfront
  exact Bool.noConfusion hfront

end Numerals

end FormulaCalculus
