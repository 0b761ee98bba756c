import FormulaCalculus.Proofs.Token.Reading

/-!
What a blank ends. A spelling without blanks that starts a text ends where the text first has a
blank, and so does a number literal. So a token that is read off a text is read off every other text
that is the same up to its end and then either goes on alike or pauses: the spellings that start the
other text are among those that started the first one, and the one that was taken is still there.
-/

namespace FormulaCalculus

/-- Whether a text is over or goes on with a blank. -/
def Pauses (cs : List Char) : Prop := ∀ c ∈ cs.head?, isBlank c = true

/-- Whether a text has no blank, and is not empty. -/
structure IsWord (cs : List Char) : Prop where
  ne_nil : cs ≠ []
  chars : ∀ c ∈ cs, isBlank c = false

theorem isWord_iff_all {cs : List Char} :
    IsWord cs ↔ (!cs.isEmpty && cs.all fun c => !isBlank c) = true := by
  rw [Bool.and_eq_true, List.all_eq_true]
  constructor
  · intro h
    exact ⟨by simpa using h.ne_nil, by simpa using h.chars⟩
  · rintro ⟨hne, hchars⟩
    exact ⟨by simpa using hne, by simpa using hchars⟩

variable {u x y : List Char}

theorem IsWord.isPrefixOf_append {p : List Char} (hp : IsWord p) (hy : Pauses y) :
    p.isPrefixOf (u ++ y) = p.isPrefixOf u := by
  cases y with
  | nil => rw [List.append_nil]
  | cons d more =>
    apply isPrefixOf_append_of_not_mem
    intro hmem
    have hblank := hy d rfl
    rw [hp.chars d hmem] at hblank
    exact Bool.noConfusion hblank

theorem isPrefixOf_append_of_isPrefixOf {p : List Char} (h : p.isPrefixOf u = true) :
    p.isPrefixOf (u ++ x) = true :=
  List.isPrefixOf_iff_prefix.mpr ((List.isPrefixOf_iff_prefix.mp h).trans (List.prefix_append u x))

theorem isPrefixOf_of_length_le {p : List Char} (h : p.isPrefixOf (u ++ x) = true)
    (hp : p.length ≤ u.length) : p.isPrefixOf u = true := by
  have hfront := List.isPrefixOf_iff_prefix.mp h
  exact List.isPrefixOf_iff_prefix.mpr
    (List.prefix_of_prefix_length_le hfront (List.prefix_append u x) hp)

theorem isPrefixOf_append_of_length_le {p : List Char} (h : p.isPrefixOf (u ++ x) = true)
    (hp : p.length ≤ u.length) : p.isPrefixOf (u ++ y) = true :=
  isPrefixOf_append_of_isPrefixOf (isPrefixOf_of_length_le h hp)

/-- A word that starts a text that pauses behind `u` starts every text that starts with `u`. -/
theorem IsWord.isPrefixOf_of_pauses {p : List Char} (hp : IsWord p) (hy : Pauses y)
    (h : p.isPrefixOf (u ++ y) = true) : p.isPrefixOf (u ++ x) = true := by
  rw [hp.isPrefixOf_append hy] at h
  exact isPrefixOf_append_of_isPrefixOf h

theorem Pauses.endsLiteral (hy : Pauses y) : EndsLiteral y := by
  intro c hc
  have hcases : c = ' ' ∨ c = '\t' ∨ c = '\r' ∨ c = '\n' := by
    simpa [isBlank, or_assoc] using hy c hc
  rcases hcases with rfl | rfl | rfl | rfl <;> decide

/-! ### Spellings -/

/-- What is found first is still found if less is looked for, and it is among it. -/
theorem find?_of_imp {β : Type} {p q : β → Bool} {l : List β} {r : Option β} (h : l.find? p = r)
    (hqp : ∀ b ∈ l, q b = true → p b = true) (hr : ∀ b, r = some b → q b = true) :
    l.find? q = r := by
  cases r with
  | none =>
    rw [List.find?_eq_none] at h ⊢
    intro b hb hq
    exact h b hb (hqp b hb hq)
  | some b =>
    obtain ⟨-, before, after, rfl, hbefore⟩ := List.find?_eq_some_iff_append.mp h
    refine List.find?_eq_some_iff_append.mpr ⟨hr b rfl, before, after, rfl, ?_⟩
    intro c hc
    have hc' := hbefore c hc
    have himp := hqp c (List.mem_append_left _ hc)
    simp only [Bool.not_eq_eq_eq_not, Bool.not_true] at hc' ⊢
    apply Bool.eq_false_iff.mpr
    intro hq
    rw [himp hq] at hc'
    exact Bool.noConfusion hc'

namespace Spelled

variable {τ : Type}

theorem longest?_of_imp {p q : Spelled τ → Bool} {l : List (Spelled τ)} {r : Option (Spelled τ)}
    (h : longest? (l.filter p) = r) (hqp : ∀ s ∈ l, q s = true → p s = true)
    (hr : ∀ s, r = some s → q s = true) : longest? (l.filter q) = r := by
  have hfilter : l.filter q = (l.filter p).filter q := by
    rw [List.filter_filter]
    apply List.filter_congr
    intro s hs
    cases hq : q s with
    | false => rfl
    | true => rw [hqp s hs hq]; rfl
  rw [hfilter]
  cases r with
  | none =>
    rw [longest?_eq_none_iff.mp h]
    rfl
  | some s =>
    obtain ⟨before, after, hsplit, hbefore, hafter⟩ := longest?_eq_some_iff.mp h
    rw [hsplit, List.filter_append, List.filter_cons_of_pos (hr s rfl)]
    refine longest?_eq_some_iff.mpr ⟨_, _, rfl, ?_, ?_⟩
    · intro c hc
      exact hbefore c ((List.mem_filter.mp hc).1)
    · intro c hc
      exact hafter c ((List.mem_filter.mp hc).1)

end Spelled

/-- Whether the arguments behind a name are checked alike in two texts. -/
structure SameCall (cs ds : List Char) : Prop where
  head : cs.head? = ds.head?
  delimiters : cs.filter isDelimiter = ds.filter isDelimiter

theorem SameCall.checkCall_eq {cs ds : List Char} (h : SameCall cs ds) (name : String)
    (arity : Nat) : checkCall name arity cs = checkCall name arity ds := by
  have hhead := h.head
  have hdelimiters := h.delimiters
  cases cs with
  | nil =>
    cases ds with
    | nil => rfl
    | cons d ds => nomatch hhead
  | cons c cs =>
    cases ds with
    | nil => nomatch hhead
    | cons d ds =>
      obtain rfl := Option.some.inj hhead
      by_cases hc : c = '('
      · subst hc
        rw [List.filter_cons_of_pos (by decide), List.filter_cons_of_pos (by decide)] at hdelimiters
        have hcommas : callCommas 0 cs = callCommas 0 ds := by
          rw [← callCommas_filter 0 cs, List.tail_eq_of_cons_eq hdelimiters, callCommas_filter]
        simp only [checkCall, hcommas]
      · simp [checkCall, hc]

namespace Lexicon

/-- A lexicon whose spellings are words. -/
structure Blankless (l : Lexicon) : Prop where
  unaryOperators : ∀ s ∈ l.unaryOperators, IsWord s.spelling.toList
  binaryOperators : ∀ s ∈ l.binaryOperators, IsWord s.spelling.toList
  functions : ∀ s ∈ l.functions, IsWord s.spelling.toList
  variableNames : ∀ name ∈ l.variableNames, IsWord name.toList

variable {l : Lexicon} {last : TokenId}

/-! What starts the text that pauses behind `u` starts the other text, and the other way round if it
is no longer than `u`. So the choice among the spellings is the same. -/

theorem unaryOperator?_of_pauses (hl : l.Blankless) (hy : Pauses y)
    {r : Option (Spelled UnaryOperator)} (h : l.unaryOperator? last (u ++ x) = r)
    (hr : ∀ s, r = some s → s.spelling.toList.length ≤ u.length) :
    l.unaryOperator? last (u ++ y) = r := by
  apply Spelled.longest?_of_imp h
  · intro s hs hmatch
    obtain ⟨hfront, hallowed⟩ := Bool.and_eq_true_iff.mp hmatch
    have hother := (hl.unaryOperators s hs).isPrefixOf_of_pauses (x := x) hy hfront
    exact Bool.and_eq_true_iff.mpr ⟨hother, hallowed⟩
  · rintro s rfl
    have hmatch := (List.mem_filter.mp (Spelled.longest?_mem h)).2
    obtain ⟨hfront, hallowed⟩ := Bool.and_eq_true_iff.mp hmatch
    have hother := isPrefixOf_append_of_length_le (y := y) hfront (hr s rfl)
    exact Bool.and_eq_true_iff.mpr ⟨hother, hallowed⟩

theorem binaryOperator?_of_pauses (hl : l.Blankless) (hy : Pauses y)
    {r : Option (Spelled BinaryOperator)} (h : l.binaryOperator? last (u ++ x) = .ok r)
    (hr : ∀ s, r = some s → s.spelling.toList.length ≤ u.length) :
    l.binaryOperator? last (u ++ y) = .ok r := by
  have hlongest : Spelled.longest? (l.binaryOperators.filter fun s => s.isPrefixOf (u ++ x)) =
      r := by
    unfold binaryOperator? at h
    split at h
    · rename_i hnone
      rw [hnone, Except.ok.inj h]
    · rename_i s hs
      split at h
      · nomatch h
      · rw [hs, Except.ok.inj h]
  have hother : Spelled.longest? (l.binaryOperators.filter fun s => s.isPrefixOf (u ++ y)) =
      r := by
    apply Spelled.longest?_of_imp hlongest
    · intro s hs hfront
      exact (hl.binaryOperators s hs).isPrefixOf_of_pauses hy hfront
    · rintro s rfl
      exact isPrefixOf_append_of_length_le (binaryOperator?_isPrefixOf h).2 (hr s rfl)
  unfold binaryOperator? at h ⊢
  rw [hlongest] at h
  rw [hother]
  exact h

theorem longestVariable?_of_pauses (hl : l.Blankless) (hy : Pauses y) {r : Option String}
    (h : l.longestVariable? (u ++ x) = r) (hr : ∀ n, r = some n → n.toList.length ≤ u.length) :
    l.longestVariable? (u ++ y) = r := by
  apply find?_of_imp h
  · intro name hname hfront
    exact (hl.variableNames name hname).isPrefixOf_of_pauses hy hfront
  · rintro name rfl
    have hfront := List.find?_some h
    exact isPrefixOf_append_of_length_le hfront (hr name rfl)

/-- If the same variable is the longest one, no function is found that was not found before. -/
theorem callable?_none_of_pauses (hl : l.Blankless) (hy : Pauses y)
    (hvariable : l.longestVariable? (u ++ y) = l.longestVariable? (u ++ x))
    (h : l.callable? (u ++ x) = .ok none) : l.callable? (u ++ y) = .ok none := by
  unfold callable? at h ⊢
  rw [hvariable]
  dsimp only at h ⊢
  split at h
  · rename_i hnone
    have hother := find?_of_imp (q := fun s : Spelled Function => s.isPrefixOf (u ++ y) &&
      decide (((l.longestVariable? (u ++ x)).map String.utf8ByteSize).getD 0 ≤
        s.spelling.utf8ByteSize)) hnone ?_ (fun s hs => nomatch hs)
    · rw [hother]
    · intro s hs hmatch
      obtain ⟨hfront, hleast⟩ := Bool.and_eq_true_iff.mp hmatch
      have hfirst := (hl.functions s hs).isPrefixOf_of_pauses (x := x) hy hfront
      exact Bool.and_eq_true_iff.mpr ⟨hfirst, hleast⟩
  · obtain ⟨-, -, h⟩ := exists_of_bind_eq_ok h
    nomatch h

/-- A variable that is tried in front of a function and does not hide it is no longer than it. -/
theorem length_longestVariable?_le {s : Spelled Function} {cs : List Char} {n : String}
    (h : l.callable? cs = .ok (some s)) (hn : l.longestVariable? cs = some n) :
    n.toList.length ≤ s.spelling.toList.length := by
  have hfunction := List.isPrefixOf_iff_prefix.mp (callable?_isPrefixOf h).2
  have hstarts := List.find?_some hn
  have hvariable := List.isPrefixOf_iff_prefix.mp hstarts
  have hleast : n.utf8ByteSize ≤ s.spelling.utf8ByteSize := by
    unfold callable? at h
    dsimp only at h
    rw [hn] at h
    split at h
    · nomatch h
    · rename_i hfind
      obtain ⟨-, -, h⟩ := exists_of_bind_eq_ok h
      obtain rfl := Option.some.inj (Except.ok.inj h)
      have hmatch := List.find?_some hfind
      exact of_decide_eq_true (Bool.and_eq_true_iff.mp hmatch).2
  -- both start the same text, so the longer one starts with the other
  by_contra hlonger
  have hprefix := List.prefix_of_prefix_length_le hfunction hvariable (by omega)
  have hsame := eq_of_isPrefixOf_of_utf8ByteSize_le (List.isPrefixOf_iff_prefix.mpr hprefix) hleast
  rw [hsame] at hlonger
  omega

theorem callable?_some_of_pauses (hl : l.Blankless) (hy : Pauses y) {s : Spelled Function}
    (h : l.callable? (u ++ x) = .ok (some s)) (hs : s.spelling.toList.length ≤ u.length)
    (hcall : SameCall ((u ++ x).drop s.spelling.toList.length)
      ((u ++ y).drop s.spelling.toList.length)) : l.callable? (u ++ y) = .ok (some s) := by
  have hvariable : l.longestVariable? (u ++ y) = l.longestVariable? (u ++ x) := by
    apply longestVariable?_of_pauses hl hy rfl
    intro n hn
    exact (length_longestVariable?_le h hn).trans hs
  have hfront := (callable?_isPrefixOf h).2
  unfold callable? at h ⊢
  rw [hvariable]
  dsimp only at h ⊢
  split at h
  · nomatch h
  · rename_i r hfind
    obtain ⟨checked, hcheck, h⟩ := exists_of_bind_eq_ok h
    obtain rfl := Option.some.inj (Except.ok.inj h)
    have hother := find?_of_imp (q := fun s : Spelled Function => s.isPrefixOf (u ++ y) &&
      decide (((l.longestVariable? (u ++ x)).map String.utf8ByteSize).getD 0 ≤
        s.spelling.utf8ByteSize)) hfind ?_ ?_
    · rw [hother]
      dsimp only
      rw [← hcall.checkCall_eq, hcheck]
      rfl
    · intro s hs hmatch
      obtain ⟨hstarts, hleast⟩ := Bool.and_eq_true_iff.mp hmatch
      have hfirst := (hl.functions s hs).isPrefixOf_of_pauses (x := x) hy hstarts
      exact Bool.and_eq_true_iff.mpr ⟨hfirst, hleast⟩
    · intro s hs'
      obtain rfl := Option.some.inj hs'
      have hmatch := List.find?_some hfind
      have hstarts := isPrefixOf_append_of_length_le (y := y) hfront hs
      exact Bool.and_eq_true_iff.mpr ⟨hstarts, (Bool.and_eq_true_iff.mp hmatch).2⟩

variable {α : Type} [Scalar α] {text : List Char} {t : Token α}

/-- An operand is read off both texts, and the longest variable is the same in both. -/
theorem operand_of_pauses (hl : l.Blankless) (hy : Pauses y)
    (h : l.operand (u ++ x) = .ok (t, text)) (htext : text.length ≤ u.length) :
    l.operand (u ++ y) = .ok (t, text) ∧
      l.longestVariable? (u ++ y) = l.longestVariable? (u ++ x) := by
  unfold operand at h ⊢
  cases hvariable : l.longestVariable? (u ++ x) with
  | some name =>
    rw [hvariable] at h
    obtain ⟨rfl, rfl⟩ := Prod.mk.inj (Except.ok.inj h)
    have hother : l.longestVariable? (u ++ y) = some name := by
      apply longestVariable?_of_pauses hl hy hvariable
      intro n hn
      rw [← Option.some.inj hn]
      exact htext
    rw [hother]
    exact ⟨rfl, rfl⟩
  | none =>
    have hother : l.longestVariable? (u ++ y) = none :=
      longestVariable?_of_pauses hl hy hvariable fun n hn => nomatch hn
    rw [hother]
    refine ⟨?_, rfl⟩
    rw [hvariable] at h
    dsimp only at h ⊢
    split at h
    · rename_i n hliteral
      split at h
      · rename_i c hc
        obtain ⟨rfl, rfl⟩ := Prod.mk.inj (Except.ok.inj h)
        rw [Literal.ofPrefix?_of_endsLiteral hliteral htext hy.endsLiteral]
        simp only [hc]
      · nomatch h
    · nomatch h

/-- A token that ends within `u` is taken off the front of every text that goes on with a blank
behind `u`, if the arguments behind the name of a function are checked alike. -/
theorem word_of_pauses (hl : l.Blankless) (hy : Pauses y)
    (h : l.word last (u ++ x) = .ok (t, text)) (htext : text.length ≤ u.length)
    (hcall : ∀ f, t = .function f →
      SameCall ((u ++ x).drop text.length) ((u ++ y).drop text.length)) :
    l.word last (u ++ y) = .ok (t, text) := by
  unfold word at h ⊢
  cases hunary : l.unaryOperator? last (u ++ x) with
  | some s =>
    rw [hunary] at h
    obtain ⟨rfl, rfl⟩ := Prod.mk.inj (Except.ok.inj h)
    have hother : l.unaryOperator? last (u ++ y) = some s := by
      apply unaryOperator?_of_pauses hl hy hunary
      intro r hr
      rw [← Option.some.inj hr]
      exact htext
    rw [hother]
  | none =>
    have hother : l.unaryOperator? last (u ++ y) = none :=
      unaryOperator?_of_pauses hl hy hunary fun s hs => nomatch hs
    rw [hother]
    rw [hunary] at h
    obtain ⟨op, hbinary, h⟩ := exists_of_bind_eq_ok h
    cases op with
    | some s =>
      obtain ⟨rfl, rfl⟩ := Prod.mk.inj (Except.ok.inj h)
      have hbinary' : l.binaryOperator? last (u ++ y) = .ok (some s) := by
        apply binaryOperator?_of_pauses hl hy hbinary
        intro r hr
        rw [← Option.some.inj hr]
        exact htext
      rw [hbinary']
      rfl
    | none =>
      have hbinary' : l.binaryOperator? last (u ++ y) = .ok none :=
        binaryOperator?_of_pauses hl hy hbinary fun s hs => nomatch hs
      rw [hbinary']
      obtain ⟨f, hfunction, h⟩ := exists_of_bind_eq_ok h
      cases f with
      | some s =>
        obtain ⟨rfl, rfl⟩ := Prod.mk.inj (Except.ok.inj h)
        have hsame := callable?_some_of_pauses hl hy hfunction htext (hcall s.token rfl)
        simp only [hsame]
        rfl
      | none =>
        obtain ⟨hoperand, hvariable⟩ := operand_of_pauses hl hy h htext
        simp only [callable?_none_of_pauses hl hy hvariable hfunction]
        exact hoperand

theorem nextToken_of_pauses (hl : l.Blankless) (hu : u ≠ []) (hy : Pauses y)
    (h : l.nextToken last (u ++ x) = .ok (t, text)) (htext : text.length ≤ u.length)
    (hcall : ∀ f, t = .function f →
      SameCall ((u ++ x).drop text.length) ((u ++ y).drop text.length)) :
    l.nextToken last (u ++ y) = .ok (t, text) := by
  obtain ⟨c, cs, rfl⟩ := List.exists_cons_of_ne_nil hu
  by_cases hc : isDelimiter c = true
  · obtain ⟨d, -, hd⟩ := nextToken_cons_of_delimiter (α := α) hc
    rw [List.cons_append, hd] at h
    rw [List.cons_append, hd, h]
  · have hplain := Bool.eq_false_iff.mpr hc
    rw [List.cons_append, nextToken_cons_of_plain hplain] at h ⊢
    exact word_of_pauses hl hy h htext hcall

end Lexicon

end FormulaCalculus
