import Mathlib.Data.List.DropRight
import FormulaCalculus.Error
import FormulaCalculus.Proofs.Token.Adjacency
import FormulaCalculus.Proofs.Token.Numeral

/-!
How lexing fails. A text is refused for what is written in it, under every lexicon, and never for a
literal. Under the standard lexicon lexing also comes to an end: only a variable with the empty name
is read without end.
-/

namespace FormulaCalculus

/-- The kinds of faults that a formula can have. -/
inductive Fault where
  | noMatch
  | disallowedAdjacency
  | missingCallParen
  | unbalancedCall
  | arityMismatch
  | mismatchedParentheses
  | stackUnderflow
  | unreduced
  deriving DecidableEq

/-- The fault of a formula that an error of the lexer reports. -/
def LexError.fault? : LexError → Option Fault
  | noMatch _ => some .noMatch
  | disallowedAdjacency _ _ => some .disallowedAdjacency
  | missingCallParen _ => some .missingCallParen
  | unbalancedCall _ => some .unbalancedCall
  | arityMismatch _ _ _ => some .arityMismatch
  | invalidNumber _ | endless _ => none

theorem checkCall_fault {name : String} {arity : Nat} {cs : List Char} {e : LexError}
    (h : checkCall name arity cs = .error e) : ∃ k, e.fault? = some k := by
  unfold checkCall at h
  split at h
  · split at h
    · obtain rfl := Except.error.inj h
      exact ⟨_, rfl⟩
    · split_ifs at h
      obtain rfl := Except.error.inj h
      exact ⟨_, rfl⟩
  · obtain rfl := Except.error.inj h
    exact ⟨_, rfl⟩

namespace Lexicon

variable {α : Type} [Scalar α] {l : Lexicon} {last : TokenId} {cs input text : List Char}
  {t : Token α} {e : LexError}

omit [Scalar α] in
theorem callable?_fault (h : l.callable? cs = .error e) : ∃ k, e.fault? = some k := by
  unfold callable? at h
  dsimp only at h
  split at h
  · nomatch h
  · rcases bind_eq_error h with hcheck | ⟨_, _, h⟩
    · exact checkCall_fault hcheck
    · nomatch h

omit [Scalar α] in
theorem binaryOperator?_fault (h : l.binaryOperator? last cs = .error e) :
    ∃ k, e.fault? = some k := by
  unfold binaryOperator? at h
  split at h
  · nomatch h
  · split_ifs at h
    obtain rfl := Except.error.inj h
    exact ⟨_, rfl⟩

theorem operand_fault (h : l.operand (α := α) cs = .error e) : ∃ k, e.fault? = some k := by
  unfold operand at h
  split at h
  · nomatch h
  · split at h
    · rename_i n hn
      -- What is taken for a literal stands for a constant.
      obtain ⟨c, hc⟩ := Literal.exists_constant? (α := α) hn
      rw [hc] at h
      nomatch h
    · obtain rfl := Except.error.inj h
      exact ⟨_, rfl⟩

theorem word_fault (h : l.word (α := α) last cs = .error e) : ∃ k, e.fault? = some k := by
  unfold word at h
  split at h
  · nomatch h
  · rcases bind_eq_error h with hbinary | ⟨op, _, h⟩
    · exact binaryOperator?_fault hbinary
    · cases op with
      | some s => nomatch h
      | none =>
        rcases bind_eq_error h with hcallable | ⟨f, _, h⟩
        · exact callable?_fault hcallable
        · cases f with
          | some s => nomatch h
          | none => exact operand_fault h

/-- Where no token is read, the text has a fault. -/
theorem nextToken_fault (h : l.nextToken (α := α) last cs = .error e) :
    ∃ k, e.fault? = some k := by
  unfold nextToken at h
  split at h
  · nomatch h
  · nomatch h
  · nomatch h
  · exact word_fault h

/-- A scan goes on behind the token that is read first. -/
theorem ending_scanFrom (fuel : Nat) (last : TokenId) (input : List Char) :
    (l.scanFrom (α := α) (fuel + 1) last input).ending =
      if (input.dropWhile isBlank).isEmpty then .ok (input.takeWhile isBlank)
      else l.nextToken (α := α) last (input.dropWhile isBlank) >>= fun r =>
        (l.scanFrom (α := α) fuel r.1.id ((input.dropWhile isBlank).drop r.2.length)).ending := by
  rw [scanFrom]
  dsimp only
  split_ifs
  · rfl
  · cases l.nextToken (α := α) last (input.dropWhile isBlank) <;> rfl

theorem lexemes_scanFrom {fuel : Nat} (hinput : ¬ (input.dropWhile isBlank).isEmpty = true)
    (hnext : l.nextToken last (input.dropWhile isBlank) = .ok (t, text)) :
    (l.scanFrom (fuel + 1) last input).lexemes = ⟨input.takeWhile isBlank, text, t⟩ ::
      (l.scanFrom fuel t.id ((input.dropWhile isBlank).drop text.length)).lexemes := by
  rw [scanFrom]
  dsimp only
  rw [if_neg hinput, hnext]

theorem ending_fault {fuel : Nat} (h : (l.scanFrom (α := α) fuel last input).ending = .error e) :
    (∃ k, e.fault? = some k) ∨ ∃ remaining, e = .endless remaining := by
  induction fuel generalizing last input with
  | zero => exact Or.inr ⟨_, (Except.error.inj h).symm⟩
  | succ fuel ih =>
    rw [ending_scanFrom] at h
    split_ifs at h
    rcases bind_eq_error h with hnext | ⟨r, _, h⟩
    · exact Or.inl (nextToken_fault hnext)
    · exact ih h

/-- Whether a text is read without end: however many tokens are taken, there is one more. -/
def NeverEnds (α : Type) [Scalar α] (l : Lexicon) (last : TokenId) (input : List Char) : Prop :=
  ∀ fuel, ∃ remaining, (l.scanFrom (α := α) fuel last input).ending = .error (.endless remaining)

/-- A text is read without end if what stands behind its first token is. -/
theorem NeverEnds.behind (hinput : ¬ (input.dropWhile isBlank).isEmpty = true)
    (hnext : l.nextToken last (input.dropWhile isBlank) = .ok (t, text))
    (h : l.NeverEnds α t.id ((input.dropWhile isBlank).drop text.length)) :
    l.NeverEnds α last input := by
  intro fuel
  cases fuel with
  | zero => exact ⟨_, rfl⟩
  | succ fuel =>
    rw [ending_scanFrom, if_neg hinput, hnext]
    exact h fuel

/-- A token that is read without text behind itself is read without end. -/
theorem NeverEnds.of_repeated (hcs : ¬ (cs.dropWhile isBlank).isEmpty = true)
    (hblank : cs.dropWhile isBlank = cs) (hnext : l.nextToken t.id cs = .ok (t, [])) :
    l.NeverEnds α t.id cs := by
  intro fuel
  induction fuel with
  | zero => exact ⟨_, rfl⟩
  | succ fuel ih =>
    rw [ending_scanFrom, if_neg hcs, hblank, hnext]
    exact ih

variable {names : List String}

/-- Every standard token has a text, but a variable need not have a name. -/
theorem Takes.ne_nil (h : (standard.withVariables names).Takes last cs t text) :
    text ≠ [] ∨ "" ∈ names ∧ t = .variableName "" ∧ text = [] := by
  cases h with
  | delimiter ht hcs => exact Or.inl (List.cons_ne_nil _ _)
  | @unaryOperator s h =>
    have hs := (unaryOperator?_isPrefixOf h).1
    rw [withVariables_unaryOperators] at hs
    obtain rfl := List.mem_singleton.mp hs
    exact Or.inl (List.cons_ne_nil _ _)
  | @binaryOperator s h =>
    have hs := (binaryOperator?_isPrefixOf h).1
    rw [withVariables_binaryOperators] at hs
    obtain ⟨c, hspelling, -⟩ := standardBinaryOperators_spelling hs
    rw [hspelling]
    exact Or.inl (List.cons_ne_nil _ _)
  | @function s h =>
    have hs := (callable?_isPrefixOf h).1
    rw [withVariables_functions] at hs
    obtain ⟨c, rest, hspelling, -⟩ := standardFunctions_spelling hs
    rw [hspelling]
    exact Or.inl (List.cons_ne_nil _ _)
  | @variableName name h =>
    by_cases hname : name = ""
    · subst hname
      have hmem := mem_variableNames_withVariables.mp (List.mem_of_find?_eq_some h)
      exact Or.inr ⟨hmem.resolve_right List.not_mem_nil, rfl, rfl⟩
    · left
      intro hnil
      exact hname (String.toList_eq_nil_iff.mp hnil)
  | @constant n c hn hc =>
    obtain ⟨d, ds, hdigits, -⟩ := Literal.exists_digit hn
    rw [Literal.text, hdigits]
    exact Or.inl (List.cons_ne_nil _ _)

omit [Scalar α] in
theorem binaryOperator?_none {i j : TokenId} (h : l.binaryOperator? i cs = .ok none) :
    l.binaryOperator? j cs = .ok none := by
  unfold binaryOperator? at h ⊢
  split at h
  · rfl
  · split_ifs at h
    nomatch h

/-- A variable that is read behind some token is read behind itself: no minus may stand there, and
where no binary operator starts none is refused. -/
theorem nextToken_repeated {name : String}
    (h : (standard.withVariables names).nextToken (α := α) last cs =
      .ok (.variableName name, text)) :
    (standard.withVariables names).nextToken (α := α) TokenId.variableName cs =
      .ok (.variableName name, text) := by
  have hunary : (standard.withVariables names).unaryOperator? TokenId.variableName cs = none :=
    unaryOperator?_of_not_mem (by decide) cs
  have hword (h : (standard.withVariables names).word (α := α) last cs =
      .ok (.variableName name, text)) :
      (standard.withVariables names).word (α := α) TokenId.variableName cs =
        .ok (.variableName name, text) := by
    unfold word at h ⊢
    rw [hunary]
    split at h
    · nomatch h
    · obtain ⟨op, hop, h⟩ := exists_of_bind_eq_ok h
      cases op with
      | some s => nomatch h
      | none =>
        rw [binaryOperator?_none hop]
        exact h
  unfold nextToken at h ⊢
  split at h
  · nomatch h
  · nomatch h
  · nomatch h
  · exact hword h

/-- A token with a text makes what is left to be read shorter. -/
theorem length_behind_lt (htext : text ≠ [])
    (hinput : ¬ (input.dropWhile isBlank).isEmpty = true) :
    ((input.dropWhile isBlank).drop text.length).length < input.length := by
  have hdropped := List.length_dropWhile_le isBlank input
  have hpos : 0 < text.length := List.length_pos_iff.mpr htext
  have hrest : 0 < (input.dropWhile isBlank).length := by
    apply List.length_pos_iff.mpr
    simpa only [List.isEmpty_iff] using hinput
  rw [List.length_drop]
  omega

/-- A scan with more rounds than characters is cut off only if some round reads no text. -/
theorem exists_empty_of_endless {l : Lexicon} {fuel : Nat} {remaining : String}
    (h : (l.scanFrom (α := α) fuel last input).ending = .error (.endless remaining))
    (hfuel : input.length < fuel) :
    ∃ x ∈ (l.scanFrom (α := α) fuel last input).lexemes, x.text = [] := by
  induction fuel generalizing last input with
  | zero => omega
  | succ fuel ih =>
    rw [ending_scanFrom] at h
    split_ifs at h with hinput
    rcases bind_eq_error h with hnext | ⟨⟨t, text⟩, hnext, h⟩
    · obtain ⟨k, hk⟩ := nextToken_fault hnext
      nomatch hk
    · rw [lexemes_scanFrom hinput hnext]
      by_cases htext : text = []
      · exact ⟨_, List.mem_cons_self, htext⟩
      · have hshorter : ((input.dropWhile isBlank).drop text.length).length < fuel :=
          Nat.lt_of_lt_of_le (length_behind_lt htext hinput) (Nat.le_of_lt_succ hfuel)
        obtain ⟨x, hx, hempty⟩ := ih h hshorter
        exact ⟨x, List.mem_cons_of_mem _ hx, hempty⟩

/-- Under the standard lexicon only the empty name is read without text, and what is read so once
is read so forever. -/
theorem neverEnds_of_empty {fuel : Nat} {x : Lexeme α}
    (hx : x ∈ ((standard.withVariables names).scanFrom (α := α) fuel last input).lexemes)
    (hempty : x.text = []) :
    "" ∈ names ∧ (standard.withVariables names).NeverEnds α last input := by
  induction fuel generalizing last input with
  | zero => nomatch hx
  | succ fuel ih =>
    by_cases hinput : (input.dropWhile isBlank).isEmpty = true
    · simp [scanFrom, hinput] at hx
    cases hnext : (standard.withVariables names).nextToken (α := α) last
        (input.dropWhile isBlank) with
    | error e => simp [scanFrom, hinput, hnext] at hx
    | ok r =>
      obtain ⟨t, text⟩ := r
      rw [lexemes_scanFrom hinput hnext] at hx
      rcases List.mem_cons.mp hx with rfl | hx
      · obtain ⟨hmem, rfl, rfl⟩ := (nextToken_takes hnext).ne_nil.resolve_left (· hempty)
        refine ⟨hmem, NeverEnds.behind hinput hnext ?_⟩
        have hblank := List.dropWhile_idempotent isBlank input
        apply NeverEnds.of_repeated
        · exact fun hnil => hinput (hblank ▸ hnil)
        · exact hblank
        · exact nextToken_repeated hnext
      · obtain ⟨hmem, hnever⟩ := ih hx
        exact ⟨hmem, hnever.behind hinput hnext⟩

/-- A scan with more tokens than characters is cut off only where it never ends. -/
theorem neverEnds_of_ending {fuel : Nat} {remaining : String}
    (h : ((standard.withVariables names).scanFrom (α := α) fuel last input).ending =
      .error (.endless remaining)) (hfuel : input.length < fuel) :
    "" ∈ names ∧ (standard.withVariables names).NeverEnds α last input := by
  obtain ⟨x, hx, hempty⟩ := exists_empty_of_endless h hfuel
  exact neverEnds_of_empty hx hempty

/-- Under the standard lexicon a text that is not lexed has a fault, or is read without end. -/
theorem lex_fault {source : String}
    (h : (standard.withVariables names).lex (α := α) source = .error e) :
    (∃ k, e.fault? = some k) ∨ (∃ remaining, e = .endless remaining) ∧ "" ∈ names ∧
      (standard.withVariables names).NeverEnds α TokenId.start source.toList := by
  have hending : ((standard.withVariables names).scan (α := α) source).ending = .error e := by
    unfold lex at h
    dsimp only at h
    cases hscan : ((standard.withVariables names).scan (α := α) source).ending with
    | ok blanks =>
      rw [hscan] at h
      nomatch h
    | error d =>
      rw [hscan] at h
      exact congrArg Except.error (Except.error.inj h)
  rcases ending_fault hending with hfault | ⟨remaining, rfl⟩
  · exact Or.inl hfault
  · right
    refine ⟨⟨remaining, rfl⟩, neverEnds_of_ending hending ?_⟩
    rw [scanBound_standard]
    omega

end Lexicon

end FormulaCalculus
