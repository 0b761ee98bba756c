import Mathlib.Data.List.DropRight
import Mathlib.Tactic.SplitIfs
import FormulaCalculus.Json.Reader

/-!
What is written is read back. A written string is read as its characters, whatever they are, and the
arrays and objects that are put together of written values are read as the values in their order.
Every statement leaves the text behind the value open, so that it can be used inside a longer text.
-/

namespace FormulaCalculus

namespace Json

/-! ## Strings -/

theorem hexValue?_hexDigit {n : Nat} (hn : n < 16) : hexValue? (hexDigit n) = some n := by
  revert n
  decide

theorem hexCode?_hexDigit {n : Nat} (hn : n < 256) (rest : List Char) :
    hexCode? ('0' :: '0' :: hexDigit (n / 16) :: hexDigit (n % 16) :: rest) = some (n, rest) := by
  have hzero : hexValue? '0' = some 0 := rfl
  have hhigh := hexValue?_hexDigit (n := n / 16) (by omega)
  have hlow := hexValue?_hexDigit (n := n % 16) (by omega)
  simp only [hexCode?, hzero, hhigh, hlow, Option.bind_eq_bind, Option.bind_some,
    Option.pure_def, Option.some.injEq, Prod.mk.injEq, and_true]
  omega

/-- A backslash and a letter are read as the character they stand for. -/
theorem readText_simpleEscape {c d : Char} (hd : simpleEscape? d = some c) (fuel : Nat)
    (rest : List Char) :
    readText (fuel + 1) ('\\' :: d :: rest) =
      (readText fuel rest).map fun p => (consChar c p.1, p.2) := by
  have hu : d ≠ 'u' := by
    rintro rfl
    exact nomatch hd
  rw [readText]
  · simp only [hd]
    cases readText fuel rest <;> rfl
  · intro h
    exact hu h

/-- The code of a control character is read as the character. -/
theorem readText_controlCode {c : Char} (hc : c.toNat < 32) (fuel : Nat) (rest : List Char) :
    readText (fuel + 1)
        ('\\' :: 'u' :: '0' :: '0' :: hexDigit (c.toNat / 16) :: hexDigit (c.toNat % 16) :: rest) =
      (readText fuel rest).map fun p => (consChar c p.1, p.2) := by
  have hcode := hexCode?_hexDigit (n := c.toNat) (by omega) rest
  have hhigh : isHighSurrogate c.toNat = false := by
    simp only [isHighSurrogate, Bool.and_eq_false_iff, decide_eq_false_iff_not]
    omega
  have hlow : isLowSurrogate c.toNat = false := by
    simp only [isLowSurrogate, Bool.and_eq_false_iff, decide_eq_false_iff_not]
    omega
  simp only [readText, hcode, Option.bind_eq_bind, Option.bind_some, hhigh, hlow,
    Bool.false_eq_true, if_false, Char.ofNat_toNat]
  cases readText fuel rest <;> rfl

/-- A character that needs no escape is read as itself. -/
theorem readText_plain {c : Char} (hquote : c ≠ '"') (hbackslash : c ≠ '\\') (hc : ¬c.toNat < 32)
    (fuel : Nat) (rest : List Char) :
    readText (fuel + 1) (c :: rest) =
      (readText fuel rest).map fun p => (consChar c p.1, p.2) := by
  have hplain : (decide (c.toNat < 32) || c == '\\') = false := by
    simp only [hc, hbackslash, decide_false, beq_eq_false_iff_ne.mpr, ne_eq, not_false_eq_true,
      Bool.or_self]
  rw [readText]
  · simp only [hplain, Bool.false_eq_true, if_false]
    cases readText fuel rest <;> rfl
  · exact hquote
  · intro _ h _
    exact hbackslash h
  · intro _ _ h _
    exact hbackslash h

/-- A written character is read as the character. -/
theorem readText_escapeChar (c : Char) (fuel : Nat) (rest : List Char) :
    readText (fuel + 1) (escapeChar c ++ rest) =
      (readText fuel rest).map fun p => (consChar c p.1, p.2) := by
  unfold escapeChar
  split_ifs with hquote hbackslash hbackspace hformFeed hlineFeed hreturn htab hcontrol
  · exact readText_simpleEscape (by rw [hquote]; rfl) fuel rest
  · exact readText_simpleEscape (by rw [hbackslash]; rfl) fuel rest
  · exact readText_simpleEscape (by rw [hbackspace]; rfl) fuel rest
  · exact readText_simpleEscape (by rw [hformFeed]; rfl) fuel rest
  · exact readText_simpleEscape (by rw [hlineFeed]; rfl) fuel rest
  · exact readText_simpleEscape (by rw [hreturn]; rfl) fuel rest
  · exact readText_simpleEscape (by rw [htab]; rfl) fuel rest
  · exact readText_controlCode hcontrol fuel rest
  · exact readText_plain hquote hbackslash hcontrol fuel rest

theorem readText_escaped (cs rest : List Char) {fuel : Nat} (hfuel : cs.length < fuel) :
    readText fuel (cs.flatMap escapeChar ++ '"' :: rest) = some (some cs, rest) := by
  induction cs generalizing fuel with
  | nil =>
    obtain ⟨n, rfl⟩ := Nat.exists_eq_succ_of_ne_zero (Nat.ne_zero_of_lt hfuel)
    rfl
  | cons c cs ih =>
    rw [List.length_cons] at hfuel
    obtain ⟨n, rfl⟩ := Nat.exists_eq_succ_of_ne_zero (Nat.ne_zero_of_lt hfuel)
    have hrest := ih (show cs.length < n by omega)
    rw [List.flatMap_cons, List.append_assoc, readText_escapeChar, hrest]
    rfl

theorem length_escapeChar_pos (c : Char) : 0 < (escapeChar c).length := by
  unfold escapeChar
  split_ifs <;> exact Nat.succ_pos _

/-- Writing a string makes it no shorter. -/
theorem length_le_length_escaped (cs : List Char) : cs.length ≤ (cs.flatMap escapeChar).length := by
  induction cs with
  | nil => exact Nat.le_refl 0
  | cons c cs ih =>
    have hc := length_escapeChar_pos c
    rw [List.flatMap_cons, List.length_append, List.length_cons]
    omega

/-- Behind the opening quote of a written string, its characters are read. -/
theorem readText_quoted (cs rest : List Char) :
    readText ((cs.flatMap escapeChar ++ '"' :: rest).length + 1)
      (cs.flatMap escapeChar ++ '"' :: rest) = some (some cs, rest) := by
  have hlength := length_le_length_escaped cs
  apply readText_escaped
  rw [List.length_append]
  omega

theorem quote_append (cs rest : List Char) :
    quote cs ++ rest = '"' :: (cs.flatMap escapeChar ++ '"' :: rest) := by
  rw [quote, List.cons_append, List.append_assoc]
  rfl

/-! ## Blanks -/

theorem skipBlanks_append {bs : List Char} (hbs : skipBlanks bs = []) (cs : List Char) :
    skipBlanks (bs ++ cs) = skipBlanks cs := by
  unfold skipBlanks at hbs ⊢
  rw [List.dropWhile_append, hbs]
  rfl

theorem skipBlanks_quote (cs : List Char) : skipBlanks ('"' :: cs) = '"' :: cs := rfl

theorem skipBlanks_colon (cs : List Char) : skipBlanks (':' :: cs) = ':' :: cs := rfl

theorem skipBlanks_skipBlanks (cs : List Char) : skipBlanks (skipBlanks cs) = skipBlanks cs :=
  List.dropWhile_idempotent _ cs

/-- Blanks in front of a value do not matter. -/
theorem readValue_skipBlanks (fuel : Nat) (cs : List Char) :
    readValue fuel (skipBlanks cs) = readValue fuel cs := by
  cases fuel with
  | zero => rfl
  | succ n => rw [readValue, skipBlanks_skipBlanks, ← readValue]

theorem readItems_skipBlanks (fuel : Nat) (cs : List Char) :
    readItems fuel (skipBlanks cs) = readItems fuel cs := by
  cases fuel with
  | zero => rfl
  | succ n => rw [readItems, readItems, readValue_skipBlanks]

theorem readMembers_skipBlanks (fuel : Nat) (cs : List Char) :
    readMembers fuel (skipBlanks cs) = readMembers fuel cs := by
  cases fuel with
  | zero => rfl
  | succ n => rw [readMembers, readMembers, skipBlanks_skipBlanks]

/-! ## Values -/

/-- A text that is read as a value, whatever stands behind it. Blanks in front belong to it. -/
def Reads (cs : List Char) (j : Json) : Prop :=
  ∀ (fuel : Nat) (rest : List Char), cs.length ≤ fuel → readValue fuel (cs ++ rest) = some (j, rest)

theorem Reads.behind_blanks {bs cs : List Char} {j : Json} (hbs : skipBlanks bs = [])
    (h : Reads cs j) : Reads (bs ++ cs) j := by
  intro fuel rest hfuel
  rw [List.length_append] at hfuel
  rw [← readValue_skipBlanks, List.append_assoc, skipBlanks_append hbs, readValue_skipBlanks]
  apply h
  omega

theorem reads_quote (cs : List Char) : Reads (quote cs) (text (some cs)) := by
  intro fuel rest hfuel
  obtain ⟨n, rfl⟩ := Nat.exists_eq_succ_of_ne_zero (Nat.ne_zero_of_lt hfuel)
  rw [quote_append, readValue, skipBlanks_quote]
  simp only [readText_quoted, Option.bind_eq_bind, Option.bind_some, Option.pure_def]

/-! ## Sequences -/

/-- How the elements between two brackets are read: the value `wrap` is made of them, `read` reads
them with the closing bracket, and `Element` relates a text to the element it stands for. -/
structure Sequence {σ : Type} (opening closing : Char) (wrap : List σ → Json)
    (read : Nat → List Char → Option (List σ × List Char)) (Element : List Char → σ → Prop) :
    Prop where
  closing_not_blank (rest : List Char) : skipBlanks (closing :: rest) = closing :: rest
  /-- The closing bracket does not start an element. -/
  start {t : List Char} {x : σ} (hx : Element t x) (rest after : List Char) :
    skipBlanks (t ++ rest) ≠ closing :: after
  /-- Behind a bracket that is not closed at once, the elements are read. -/
  enter {cs : List Char} (hcs : ∀ after, skipBlanks cs ≠ closing :: after) (fuel : Nat) :
    readValue (fuel + 1) (opening :: cs) = (read fuel cs).map fun p => (wrap p.1, p.2)
  last {t rest after : List Char} {x : σ} {fuel : Nat} (hx : Element t x) (hfuel : t.length ≤ fuel)
    (hrest : skipBlanks rest = closing :: after) : read (fuel + 1) (t ++ rest) = some ([x], after)
  more {t rest next : List Char} {x : σ} {fuel : Nat} (hx : Element t x) (hfuel : t.length ≤ fuel)
    (hrest : skipBlanks rest = ',' :: next) :
    read (fuel + 1) (t ++ rest) = (read fuel next).map fun p => (x :: p.1, p.2)

namespace Sequence

variable {σ : Type} {opening closing : Char} {wrap : List σ → Json}
  {read : Nat → List Char → Option (List σ × List Char)} {Element : List Char → σ → Prop}
  {texts : List (List Char)} {xs : List σ}

theorem read_written (h : Sequence opening closing wrap read Element)
    (hxs : List.Forall₂ Element texts xs) (hne : xs ≠ []) {rest after : List Char}
    (hrest : skipBlanks rest = closing :: after) {fuel : Nat}
    (hfuel : ([','].intercalate texts).length < fuel) :
    read fuel ([','].intercalate texts ++ rest) = some (xs, after) := by
  induction hxs generalizing fuel with
  | nil => exact absurd rfl hne
  | @cons t x ts xs hx hxs ih =>
    obtain ⟨n, rfl⟩ := Nat.exists_eq_succ_of_ne_zero (Nat.ne_zero_of_lt hfuel)
    cases hxs with
    | nil =>
      rw [List.intercalate_singleton] at hfuel ⊢
      exact h.last hx (Nat.le_of_lt_succ hfuel) hrest
    | @cons t' x' ts' xs' hx' hxs' =>
      rw [List.intercalate_cons_cons] at hfuel ⊢
      simp only [List.length_append, List.length_singleton] at hfuel
      -- the comma takes a character, so one step less still covers what stands behind it
      have hlength : ([','].intercalate (t' :: ts')).length < n := by omega
      have hothers := ih (List.cons_ne_nil x' xs') hlength
      have hcomma (l : List Char) : skipBlanks ([','] ++ l) = ',' :: l := rfl
      rw [List.append_assoc, List.append_assoc, h.more hx (by omega) (hcomma _), hothers]
      rfl

theorem start_written (h : Sequence opening closing wrap read Element)
    (hxs : List.Forall₂ Element texts xs) (hne : xs ≠ []) (rest after : List Char) :
    skipBlanks ([','].intercalate texts ++ rest) ≠ closing :: after := by
  cases hxs with
  | nil => exact absurd rfl hne
  | @cons t x ts xs hx hxs =>
    cases hxs with
    | nil =>
      rw [List.intercalate_singleton]
      exact h.start hx rest after
    | cons hx' hxs' =>
      rw [List.intercalate_cons_cons, List.append_assoc, List.append_assoc]
      exact h.start hx _ after

/-- Elements with commas between them, in brackets, are read as the value made of them. -/
theorem reads (h : Sequence opening closing wrap read Element)
    (hxs : List.Forall₂ Element texts xs) (hne : xs ≠ []) {bs : List Char}
    (hbs : skipBlanks bs = []) :
    Reads (opening :: ([','].intercalate texts ++ (bs ++ [closing]))) (wrap xs) := by
  intro fuel rest hfuel
  obtain ⟨n, rfl⟩ := Nat.exists_eq_succ_of_ne_zero (Nat.ne_zero_of_lt hfuel)
  rw [List.length_cons, List.length_append, List.length_append, List.length_singleton] at hfuel
  have hlength : ([','].intercalate texts).length < n := by omega
  have hclose : skipBlanks (bs ++ [closing] ++ rest) = closing :: rest := by
    rw [List.append_assoc, skipBlanks_append hbs]
    exact h.closing_not_blank rest
  have hread := h.read_written hxs hne hclose hlength
  rw [List.cons_append, List.append_assoc, h.enter (h.start_written hxs hne _), hread]
  rfl

end Sequence

/-! ## Arrays -/

/-- A text that is read as a value does not start with a closing bracket. -/
theorem Reads.not_bracket {cs : List Char} {j : Json} (h : Reads cs j) (rest after : List Char) :
    skipBlanks (cs ++ rest) ≠ ']' :: after := by
  intro hbracket
  -- no value starts with a closing bracket, whatever bounds the steps
  have hread := h (cs.length + 1) rest (Nat.le_succ _)
  rw [← readValue_skipBlanks, hbracket] at hread
  exact nomatch hread

theorem sequence_array : Sequence '[' ']' array readItems Reads where
  closing_not_blank _ := rfl
  start := Reads.not_bracket
  enter {cs} hcs fuel := by
    have hopen : skipBlanks ('[' :: cs) = '[' :: cs := rfl
    simp only [readValue, hopen, readItems_skipBlanks]
    cases readItems fuel cs <;> rfl
  last {_ rest _ _ fuel} hx hfuel hrest := by
    rw [readItems, hx fuel rest hfuel]
    simp only [Option.bind_eq_bind, Option.bind_some, hrest, Option.pure_def]
  more {_ rest next _ fuel} hx hfuel hrest := by
    rw [readItems, hx fuel rest hfuel]
    simp only [Option.bind_eq_bind, Option.bind_some, hrest]
    cases readItems fuel next <;> rfl

theorem reads_empty_array : Reads ['[', ']'] (array []) := by
  intro fuel rest hfuel
  obtain ⟨n, rfl⟩ := Nat.exists_eq_succ_of_ne_zero (Nat.ne_zero_of_lt hfuel)
  rfl

/-! ## Objects -/

/-- A text of a member: a key, perhaps behind blanks, a colon and a value. -/
inductive IsMember : List Char → JsonText × Json → Prop
  | intro {bs key value : List Char} {j : Json} (hbs : skipBlanks bs = []) (hvalue : Reads value j) :
      IsMember (bs ++ (quote key ++ ':' :: value)) (some key, j)

theorem IsMember.not_brace {cs : List Char} {m : JsonText × Json} (h : IsMember cs m)
    (rest after : List Char) : skipBlanks (cs ++ rest) ≠ '\x7d' :: after := by
  obtain ⟨hbs, -⟩ := h
  rw [List.append_assoc, skipBlanks_append hbs, List.append_assoc, quote_append]
  intro hbrace
  exact absurd (List.head_eq_of_cons_eq hbrace) (by decide)

/-- What is read of a member up to the text behind its value. -/
theorem IsMember.exists_read {cs : List Char} {m : JsonText × Json} (h : IsMember cs m) :
    ∃ key value : List Char, m.1 = some key ∧ Reads value m.2 ∧ value.length ≤ cs.length ∧
      ∀ fuel rest, readMembers fuel (cs ++ rest) =
        readMembers fuel ('"' :: (key.flatMap escapeChar ++ '"' :: ':' :: (value ++ rest))) := by
  obtain @⟨bs, key, value, j, hbs, hvalue⟩ := h
  refine ⟨key, value, rfl, hvalue, ?_, fun fuel rest => ?_⟩
  · simp only [List.length_append, List.length_cons]
    omega
  · rw [← readMembers_skipBlanks, List.append_assoc, skipBlanks_append hbs, readMembers_skipBlanks,
      List.append_assoc, quote_append]
    rfl

theorem sequence_object : Sequence '\x7b' '\x7d' object readMembers IsMember where
  closing_not_blank _ := rfl
  start := IsMember.not_brace
  enter {cs} hcs fuel := by
    have hopen : skipBlanks ('\x7b' :: cs) = '\x7b' :: cs := rfl
    simp only [readValue, hopen, readMembers_skipBlanks]
    cases readMembers fuel cs <;> rfl
  last {_ rest _ m fuel} hx hfuel hrest := by
    obtain ⟨key, value, hkey, hvalue, hlength, hread⟩ := hx.exists_read
    rw [hread, readMembers]
    simp only [skipBlanks_quote, skipBlanks_colon, readText_quoted, Option.bind_eq_bind,
      Option.bind_some, hvalue fuel rest (hlength.trans hfuel), hrest, ← hkey, Option.pure_def]
  more {_ rest next m fuel} hx hfuel hrest := by
    obtain ⟨key, value, hkey, hvalue, hlength, hread⟩ := hx.exists_read
    rw [hread, readMembers]
    simp only [skipBlanks_quote, skipBlanks_colon, readText_quoted, Option.bind_eq_bind,
      Option.bind_some, hvalue fuel rest (hlength.trans hfuel), hrest, ← hkey]
    cases readMembers fuel next <;> rfl

/-! ## Texts -/

/-- A text that is read as a value and holds nothing else is parsed. -/
theorem parse?_eq_some {cs : List Char} {j : Json} (h : Reads cs j) : parse? cs = some j := by
  have hread := h (2 * cs.length + 2) [] (by omega)
  rw [List.append_nil] at hread
  rw [parse?, hread]
  rfl

end Json

end FormulaCalculus
