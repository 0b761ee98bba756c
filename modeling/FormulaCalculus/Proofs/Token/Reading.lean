import FormulaCalculus.Proofs.Token.NextToken

/-!
Lexing as a relation between texts and lists of tokens, one rule for the blanks at the end and one
for a token. It says nothing of the bound on the number of tokens, so readings can be put together:
a text in front of a delimiter is read as it is read alone.
-/

namespace FormulaCalculus

namespace Lexicon

variable {α : Type} [Scalar α]

/-- `Reads l last input ts` holds if a text is cut into the tokens `ts` behind a token with id
`last`. -/
inductive Reads (l : Lexicon) : TokenId → List Char → List (Token α) → Prop
  | blanks {last : TokenId} {input : List Char} (h : ∀ c ∈ input, isBlank c = true) :
      Reads l last input []
  | token {last : TokenId} {input text : List Char} {t : Token α} {ts : List (Token α)}
      (hrest : input.dropWhile isBlank ≠ [])
      (h : l.nextToken last (input.dropWhile isBlank) = .ok (t, text))
      (tail : Reads l t.id ((input.dropWhile isBlank).drop text.length) ts) :
      Reads l last input (t :: ts)

variable {l : Lexicon} {last : TokenId} {input : List Char} {ts : List (Token α)}

theorem dropWhile_isBlank_eq_nil : input.dropWhile isBlank = [] ↔ ∀ c ∈ input, isBlank c = true :=
  List.dropWhile_eq_nil_iff

theorem scanFrom_of_reads (h : Reads l last input ts) {fuel : Nat} (hfuel : ts.length < fuel) :
    ∃ lexemes blanks, l.scanFrom fuel last input = ⟨lexemes, .ok blanks⟩ ∧
      lexemes.map Lexeme.token = ts := by
  induction h generalizing fuel with
  | @blanks last input h =>
    obtain ⟨fuel, rfl⟩ := Nat.exists_eq_succ_of_ne_zero (by omega : fuel ≠ 0)
    refine ⟨[], input.takeWhile isBlank, ?_, rfl⟩
    simp [scanFrom, dropWhile_isBlank_eq_nil.mpr h]
  | @token last input text t ts hrest h tail ih =>
    obtain ⟨fuel, rfl⟩ := Nat.exists_eq_succ_of_ne_zero (by omega : fuel ≠ 0)
    have hfuel' : ts.length < fuel := by simpa using hfuel
    obtain ⟨lexemes, blanks, hscan, hlexemes⟩ := ih hfuel'
    refine ⟨⟨input.takeWhile isBlank, text, t⟩ :: lexemes, blanks, ?_, ?_⟩
    · have hempty : (input.dropWhile isBlank).isEmpty = false := by simpa using hrest
      simp [scanFrom, hempty, h, hscan]
    · rw [List.map_cons, hlexemes]

theorem reads_of_scanFrom {fuel : Nat} {lexemes : List (Lexeme α)} {blanks : List Char}
    (h : l.scanFrom fuel last input = ⟨lexemes, .ok blanks⟩) :
    Reads l last input (lexemes.map Lexeme.token) ∧ lexemes.length < fuel := by
  induction fuel generalizing last input lexemes with
  | zero => simp [scanFrom] at h
  | succ fuel ih =>
    unfold scanFrom at h
    dsimp only at h
    split at h
    · rename_i hempty
      obtain ⟨rfl, -⟩ := Scan.mk.inj h
      have hnil := dropWhile_isBlank_eq_nil.mp (List.isEmpty_iff.mp hempty)
      exact ⟨.blanks hnil, by simp⟩
    · rename_i hrest
      split at h
      · simp at h
      · rename_i t text htoken
        obtain ⟨hlexemes, hending⟩ := Scan.mk.inj h
        subst hlexemes
        have hscan : l.scanFrom fuel t.id ((input.dropWhile isBlank).drop text.length) =
            ⟨(l.scanFrom (α := α) fuel t.id ((input.dropWhile isBlank).drop text.length)).lexemes,
              .ok blanks⟩ := by
          rw [← hending]
        obtain ⟨hreads, hlength⟩ := ih hscan
        exact ⟨.token (by simpa using hrest) htoken hreads, by simpa using hlength⟩

/-- Lexing succeeds with the tokens that are read, if they are not too many. -/
theorem lex_eq_ok_iff {source : String} :
    l.lex source = .ok ts ↔
      Reads l TokenId.start source.toList ts ∧ ts.length < l.scanBound source.toList := by
  constructor
  · intro h
    have hscan : l.scan source = ⟨(l.scan (α := α) source).lexemes, (l.scan source).ending⟩ := rfl
    unfold lex at h
    cases hending : (l.scan (α := α) source).ending with
    | error e => simp [hending, Except.map] at h
    | ok blanks =>
      simp only [hending, Except.map, Except.ok.injEq] at h
      rw [hending] at hscan
      obtain ⟨hreads, hlength⟩ := reads_of_scanFrom hscan
      subst h
      exact ⟨hreads, by simpa using hlength⟩
  · rintro ⟨hreads, hlength⟩
    obtain ⟨lexemes, blanks, hscan, rfl⟩ := scanFrom_of_reads hreads hlength
    simp only [lex, scan, hscan]
    rfl

theorem isBlank_eq_false_of_isDelimiter {d : Char} (hd : isDelimiter d = true) :
    isBlank d = false := by
  rcases isDelimiter_iff.mp hd with rfl | rfl | rfl <;> rfl

/-- No blank is a delimiter. -/
theorem filter_isDelimiter_of_isBlank {cs : List Char} (h : ∀ c ∈ cs, isBlank c = true) :
    cs.filter isDelimiter = [] := by
  apply List.filter_eq_nil_iff.mpr
  intro c hc hdelimiter
  have hblank := h c hc
  rw [isBlank_eq_false_of_isDelimiter hdelimiter] at hblank
  exact Bool.noConfusion hblank

/-- Whether the operators of a lexicon make no difference between two tokens in front of them. -/
structure Interchangeable (l : Lexicon) (i j : TokenId) : Prop where
  unary : ∀ s ∈ l.unaryOperators, s.token.allowedLeft.contains i = s.token.allowedLeft.contains j
  binary : ∀ s ∈ l.binaryOperators,
    s.token.disallowedLeft.contains i = s.token.disallowedLeft.contains j

theorem nextToken_of_interchangeable {i j : TokenId} (hij : l.Interchangeable i j)
    {cs text : List Char} {t : Token α} (h : l.nextToken i cs = .ok (t, text)) :
    l.nextToken j cs = .ok (t, text) := by
  have hunary : l.unaryOperator? i cs = l.unaryOperator? j cs := by
    unfold unaryOperator?
    rw [List.filter_congr fun s hs => by rw [hij.unary s hs]]
  have hbinary {r : Option (Spelled BinaryOperator)} (hr : l.binaryOperator? i cs = .ok r) :
      l.binaryOperator? j cs = .ok r := by
    unfold binaryOperator? at hr ⊢
    split at hr
    · exact hr
    · rename_i s hs
      rw [hij.binary s (List.mem_filter.mp (Spelled.longest?_mem hs)).1] at hr
      split at hr
      · simp at hr
      · rename_i hallowed
        simp only [hallowed]
        exact hr
  have hword (h : l.word i cs = .ok (t, text)) : l.word j cs = .ok (t, text) := by
    unfold word at h ⊢
    rw [hunary] at h
    split at h
    · exact h
    · obtain ⟨r, hr, h⟩ := exists_of_bind_eq_ok h
      rw [hbinary hr]
      exact h
  unfold nextToken at h ⊢
  split at h <;> first | exact h | exact hword h

namespace Reads

theorem of_interchangeable {i j : TokenId} (hij : l.Interchangeable i j)
    (h : Reads l i input ts) : Reads l j input ts := by
  cases h with
  | blanks h => exact .blanks h
  | token hrest h tail => exact .token hrest (nextToken_of_interchangeable hij h) tail

theorem nil : Reads l last [] ([] : List (Token α)) := .blanks (by simp)

/-- What holds of each token that can be taken holds of all that are read. -/
theorem forall_mem {P : Token α → Prop}
    (hP : ∀ last cs text t, l.Takes last cs t text → P t) (h : Reads l last input ts) :
    ∀ t ∈ ts, P t := by
  induction h with
  | blanks _ => simp
  | token _ h _ ih => exact List.forall_mem_cons.mpr ⟨hP _ _ _ _ (nextToken_takes h), ih⟩

/-- Blanks in front of a text are passed over. -/
theorem append_left {blanks : List Char} (hblanks : ∀ c ∈ blanks, isBlank c = true)
    (h : Reads l last input ts) : Reads l last (blanks ++ input) ts := by
  have hdrop : (blanks ++ input).dropWhile isBlank = input.dropWhile isBlank :=
    List.dropWhile_append_of_pos hblanks
  cases h with
  | blanks h =>
    refine .blanks fun c hc => ?_
    rcases List.mem_append.mp hc with hc | hc
    · exact hblanks c hc
    · exact h c hc
  | token hrest h tail =>
    rw [← hdrop] at hrest h tail
    exact .token hrest h tail

/-- A token whose text starts with no blank is read where it stands. -/
theorem front {c : Char} {text rest : List Char} {t : Token α} (hc : isBlank c = false)
    (h : l.nextToken last (c :: text ++ rest) = .ok (t, c :: text)) (tail : Reads l t.id rest ts) :
    Reads l last (c :: text ++ rest) (t :: ts) := by
  have hdrop : (c :: text ++ rest).dropWhile isBlank = c :: text ++ rest :=
    List.dropWhile_cons_of_neg (by simp [hc])
  have hne : (c :: text ++ rest).dropWhile isBlank ≠ [] := by
    rw [hdrop]
    exact List.cons_ne_nil c _
  rw [← hdrop] at h
  refine .token hne h ?_
  rw [hdrop, List.drop_left]
  exact tail

/-- A delimiter is read first, whatever stands in front of it. -/
theorem delimiter {d : Char} {t : Token α} (hd : isDelimiter d = true)
    (ht : t.delimiter? = some d) (h : Reads l t.id input ts) :
    Reads l last (d :: input) (t :: ts) := by
  have hnext : l.nextToken last ([d] ++ input) = .ok (t, [d]) := by
    cases t <;> simp only [Token.delimiter?, Option.some.injEq, reduceCtorEq] at ht <;>
      subst ht <;> rfl
  exact front (isBlank_eq_false_of_isDelimiter hd) hnext h

/-- A text in front of a delimiter is read as it is read alone. -/
theorem append {d : Char} {more : List Char} {us : List (Token α)} (hl : l.Plain)
    (hd : isDelimiter d = true) (h : Reads l last input ts)
    (hus : ∀ last, Reads l last (d :: more) us) :
    Reads l last (input ++ d :: more) (ts ++ us) := by
  induction h with
  | @blanks last input h => exact append_left h (hus last)
  | @token last input text t ts hrest h tail ih =>
    have hempty : (input.dropWhile isBlank).isEmpty = false := by simpa using hrest
    have hdrop : (input ++ d :: more).dropWhile isBlank =
        input.dropWhile isBlank ++ d :: more := by
      rw [List.dropWhile_append, hempty]
      rfl
    -- The token ends within the text, so the rest of the text stands in front of the delimiter.
    have hlength : text.length ≤ (input.dropWhile isBlank).length := by
      rw [← (nextToken_takes h).starts, List.length_append]
      omega
    have hnext : l.nextToken last ((input ++ d :: more).dropWhile isBlank) = .ok (t, text) := by
      rw [hdrop]
      exact nextToken_append hl hd hrest h more
    refine .token (by simp [hdrop]) hnext ?_
    rw [hdrop, List.drop_append_of_le_length hlength]
    exact ih

/-- The delimiters of a text are its tokens that are written as delimiters. -/
theorem filter_isDelimiter (hl : l.Plain) (h : Reads l last input ts) :
    input.filter isDelimiter = ts.filterMap Token.delimiter? := by
  induction h with
  | blanks h => exact filter_isDelimiter_of_isBlank h
  | @token last input text t ts hrest h tail ih =>
    have htakes := nextToken_takes h
    have hskip : input.filter isDelimiter = (input.dropWhile isBlank).filter isDelimiter := by
      conv_lhs => rw [← List.takeWhile_append_dropWhile (p := isBlank) (l := input)]
      rw [List.filter_append, filter_isDelimiter_of_isBlank fun c hc => List.mem_takeWhile_imp hc,
        List.nil_append]
    rw [hskip, ← htakes.starts, List.filter_append, htakes.delimiters hl, ih,
      Token.filterMap_delimiter?_cons]

end Reads

end Lexicon

end FormulaCalculus
