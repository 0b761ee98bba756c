import FormulaCalculus.Model.Basic
import FormulaCalculus.Proofs.Failure.Compilation

/-!
The progress of compilation. Where every token has a text, each round of the lexer makes the
remaining text shorter, and compiling a model comes to an end. Of the standard tokens only the empty
name has no text; the check of a description does not refuse it.
-/

namespace FormulaCalculus

namespace Lexicon

variable {α : Type} [Scalar α] {l : Lexicon} {names : List String} {last : TokenId}
  {input : List Char}

/-- Whether each round of the lexer makes the remaining text shorter. -/
def Progresses (α : Type) [Scalar α] (l : Lexicon) : Prop :=
  ∀ last (input : List Char) (t : Token α) text, ¬ (input.dropWhile isBlank).isEmpty = true →
    l.nextToken last (input.dropWhile isBlank) = .ok (t, text) →
      ((input.dropWhile isBlank).drop text.length).length < input.length

/-- Where each round makes the text shorter, the rounds come to an end. -/
theorem Progresses.not_endless (hl : l.Progresses α) {fuel : Nat} (hfuel : input.length < fuel)
    (remaining : String) :
    (l.scanFrom (α := α) fuel last input).ending ≠ .error (.endless remaining) := by
  intro h
  induction fuel generalizing last input with
  | zero => omega
  | succ fuel ih =>
    rw [ending_scanFrom] at h
    split_ifs at h with hinput
    rcases bind_eq_error h with hnext | ⟨⟨t, text⟩, hnext, h⟩
    · obtain ⟨k, hk⟩ := nextToken_fault hnext
      nomatch hk
    -- the bound on the length is kept, with one round less to go
    · have hshorter := hl last input t text hinput hnext
      exact ih (Nat.lt_of_lt_of_le hshorter (Nat.le_of_lt_succ hfuel)) h

theorem progresses_withVariables (hnames : "" ∉ names) :
    (standard.withVariables names).Progresses α := by
  intro last input t text hinput hnext
  rcases (nextToken_takes hnext).ne_nil with htext | ⟨hempty, -⟩
  · exact length_behind_lt htext hinput
  · exact absurd hempty hnames

/-- A text is read without end if and only if some round reads nothing of it. -/
theorem neverEnds_iff : (standard.withVariables names).NeverEnds α last input ↔
    ∃ fuel, ∃ x ∈ ((standard.withVariables names).scanFrom (α := α) fuel last input).lexemes,
      x.text = [] := by
  constructor
  · intro h
    obtain ⟨remaining, hending⟩ := h (input.length + 1)
    exact ⟨_, exists_empty_of_endless hending (Nat.lt_succ_self _)⟩
  · rintro ⟨fuel, x, hx, hempty⟩
    exact (neverEnds_of_empty hx hempty).2

theorem NeverEnds.empty_mem (h : (standard.withVariables names).NeverEnds α last input) :
    "" ∈ names := by
  obtain ⟨fuel, x, hx, hempty⟩ := neverEnds_iff.mp h
  exact (neverEnds_of_empty hx hempty).1

end Lexicon

namespace Model

open Lexicon

variable {α : Type} [Scalar α] {spec : ModelSpec} {source : String}

/-- Whether a formula of a model is read without end. -/
def NeverEnds (α : Type) [Scalar α] (spec : ModelSpec) (source : String) : Prop :=
  (lexicon spec).NeverEnds α TokenId.start source.toList

theorem compileIn_endless_iff :
    (∃ remaining, compileIn (α := α) spec source = .error (.lex (.endless remaining))) ↔
      NeverEnds α spec source := by
  constructor
  · rintro ⟨remaining, h⟩
    have hbound : ∀ n ∈ spec.variableNames, ∃ b, binding spec n = some b := by
      intro n hn
      exact ⟨n, if_pos (List.contains_iff_mem.mpr hn)⟩
    rcases Expression.compile_fault hbound h with ⟨k, hk⟩ | ⟨-, -, hnever⟩
    · nomatch hk
    · exact hnever
  · intro h
    obtain ⟨remaining, hending⟩ := h ((lexicon spec).scanBound source.toList)
    have hlex : (lexicon spec).lex (α := α) source = .error (.endless remaining) := by
      unfold lex scan
      dsimp only
      rw [hending]
      rfl
    refine ⟨remaining, ?_⟩
    unfold compileIn Expression.compile Expression.compileWith
    rw [hlex]
    rfl

/-- The descriptions whose compilation comes to a formula that is read without end. Formulas are
compiled in the order in which a description lists them, and the derivatives are taken, where none
are supplied, in front of the supplied second derivatives. -/
inductive Hangs [DecimalText α] (spec : ModelSpec) : Prop
  | expression (h : NeverEnds α spec spec.expression) : Hangs spec
  | derivative {value : StoredExpression α} {before after : List String} {source : String}
      (hvalue : compileIn spec spec.expression = .ok value)
      (hsources : spec.derivatives = some (before ++ source :: after))
      (hbefore : ∃ r, before.mapM (compileIn (α := α) spec) = .ok r)
      (h : NeverEnds α spec source) : Hangs spec
  | secondDerivative {value : StoredExpression α} {before after : List String} {source : String}
      (hvalue : compileIn spec spec.expression = .ok value)
      (hderivatives : ∃ r, compileDerivatives spec value = .ok r)
      (hsources : spec.secondDerivatives = some (before ++ source :: after))
      (hbefore : ∃ r, before.mapM (compileIn (α := α) spec) = .ok r)
      (h : NeverEnds α spec source) : Hangs spec

section

variable [DecimalText α]

/-- Taking derivatives never comes back to the lexer. -/
theorem derivative_ne_endless {value : StoredExpression α} {name remaining : String} :
    value.derivative name ≠ .error (.lex (.endless remaining)) := by
  intro h
  unfold Expression.derivative at h
  rcases bind_eq_error h with h | ⟨root, -, h⟩
  · obtain ⟨d, -, hd⟩ := exists_of_mapError_eq_error h
    nomatch hd
  · nomatch h

omit [DecimalText α] in
/-- Supplied formulas are compiled one after the other, up to one that is read without end. -/
theorem mapM_endless_iff {sources : List String} :
    (∃ remaining, sources.mapM (compileIn (α := α) spec) = .error (.lex (.endless remaining))) ↔
      ∃ before source after, sources = before ++ source :: after ∧
        (∃ r, before.mapM (compileIn (α := α) spec) = .ok r) ∧ NeverEnds α spec source := by
  constructor
  · rintro ⟨remaining, h⟩
    obtain ⟨before, source, after, rfl, hbefore, hsource⟩ := mapM_eq_error_iff.mp h
    exact ⟨before, source, after, rfl, hbefore, compileIn_endless_iff.mp ⟨remaining, hsource⟩⟩
  · rintro ⟨before, source, after, rfl, hbefore, hnever⟩
    obtain ⟨remaining, hsource⟩ := compileIn_endless_iff.mpr hnever
    exact ⟨remaining, mapM_eq_error_iff.mpr ⟨before, source, after, rfl, hbefore, hsource⟩⟩

theorem Hangs.empty_mem (h : Hangs (α := α) spec) : "" ∈ spec.variableNames := by
  cases h with
  | expression h | derivative _ _ _ h | secondDerivative _ _ _ _ h => exact h.empty_mem

theorem hangs_of_compile {remaining : String} (hvalid : spec.validate (α := α) = .ok ())
    (h : compile (α := α) spec = .error (.lex (.endless remaining))) : Hangs (α := α) spec := by
  unfold compile at h
  rw [hvalid] at h
  rcases bind_eq_error h with h | ⟨_, -, h⟩
  · nomatch h
  rcases bind_eq_error h with h | ⟨value, hvalue, h⟩
  · exact .expression (compileIn_endless_iff.mp ⟨remaining, h⟩)
  rcases bind_eq_error h with h | ⟨d, hd, h⟩
  · unfold compileDerivatives at h
    split at h
    · rename_i sources hsources
      rcases bind_eq_error h with h | ⟨_, -, h⟩
      · obtain ⟨before, source, after, rfl, hbefore, hnever⟩ := mapM_endless_iff.mp ⟨remaining, h⟩
        exact .derivative hvalue hsources hbefore hnever
      · nomatch h
    · rcases bind_eq_error h with h | ⟨_, -, h⟩
      · obtain ⟨_, name, _, -, -, hname⟩ := mapM_eq_error_iff.mp h
        exact absurd hname derivative_ne_endless
      · nomatch h
  rcases bind_eq_error h with h | ⟨_, -, h⟩
  · unfold compileCurvatures at h
    split at h
    · rename_i sources hsources
      rcases bind_eq_error h with h | ⟨_, -, h⟩
      · obtain ⟨before, source, after, rfl, hbefore, hnever⟩ := mapM_endless_iff.mp ⟨remaining, h⟩
        exact .secondDerivative hvalue ⟨d, hd⟩ hsources hbefore hnever
      · nomatch h
    · nomatch h
  · nomatch h

theorem compile_of_hangs (hvalid : spec.validate (α := α) = .ok ()) (h : Hangs (α := α) spec) :
    ∃ remaining, compile (α := α) spec = .error (.lex (.endless remaining)) := by
  unfold compile
  rw [hvalid]
  cases h with
  | expression h =>
    obtain ⟨remaining, hvalue⟩ := compileIn_endless_iff.mpr h
    rw [hvalue]
    exact ⟨remaining, rfl⟩
  | derivative hvalue hsources hbefore h =>
    obtain ⟨remaining, hall⟩ := mapM_endless_iff.mpr ⟨_, _, _, rfl, hbefore, h⟩
    rw [hvalue]
    unfold compileDerivatives
    rw [hsources]
    dsimp only
    rw [hall]
    exact ⟨remaining, rfl⟩
  | secondDerivative hvalue hderivatives hsources hbefore h =>
    obtain ⟨remaining, hall⟩ := mapM_endless_iff.mpr ⟨_, _, _, rfl, hbefore, h⟩
    obtain ⟨d, hd⟩ := hderivatives
    rw [hvalue]
    unfold compileCurvatures
    rw [hsources]
    dsimp only
    rw [hall]
    refine ⟨remaining, ?_⟩
    change compileDerivatives spec _ >>= _ = _
    rw [hd]
    rfl

/-- Compiling a valid description comes to an end unless the empty name is declared: each round of
the lexer makes the remaining text shorter, so it takes no more rounds than the text has characters,
and one to see its end. With the empty name compiling goes on forever exactly where it comes to a
formula in which some round reads nothing. -/
theorem compile_progresses (hvalid : spec.validate (α := α) = .ok ()) :
    ("" ∉ spec.variableNames →
      (lexicon spec).Progresses α ∧
      (∀ fuel last (input : List Char) remaining, input.length < fuel →
        ((lexicon spec).scanFrom (α := α) fuel last input).ending ≠ .error (.endless remaining)) ∧
      ∀ remaining, compile (α := α) spec ≠ .error (.lex (.endless remaining))) ∧
    ((∃ remaining, compile (α := α) spec = .error (.lex (.endless remaining))) ↔
      Hangs (α := α) spec) ∧
    ∀ source, NeverEnds α spec source ↔ ∃ fuel,
      ∃ x ∈ ((lexicon spec).scanFrom (α := α) fuel TokenId.start source.toList).lexemes,
        x.text = [] := by
  refine ⟨?_, ⟨?_, compile_of_hangs hvalid⟩, fun source => neverEnds_iff⟩
  · intro hnames
    have hprogresses : (lexicon spec).Progresses α := progresses_withVariables hnames
    refine ⟨hprogresses, ?_, ?_⟩
    · intro fuel last input remaining hfuel
      exact hprogresses.not_endless hfuel remaining
    · intro remaining h
      exact hnames (hangs_of_compile hvalid h).empty_mem
  · rintro ⟨remaining, h⟩
    exact hangs_of_compile hvalid h

end

/-- The model of `2*x` with a misspelt derivative is compiled up to the error in it. -/
theorem compile_progresses_misspelt :
    let spec : ModelSpec := ⟨"2*x", ["x"], [], some ["@"], none⟩
    spec.validate (α := Double) = .ok () ∧
      ∀ remaining, compile (α := Double) spec ≠ .error (.lex (.endless remaining)) := by
  intro spec
  have hvalid : spec.validate (α := Double) = .ok () := rfl
  have hnames : "" ∉ spec.variableNames := by decide
  exact ⟨hvalid, ((compile_progresses hvalid).1 hnames).2.2⟩

/-- A valid description with the empty name, whose formula `1` is read without end: at the digit the
empty name is taken in front of the number, again and again. -/
theorem compile_hangs_on_empty_name :
    let spec : ModelSpec := ⟨"1", [""], [], none, none⟩
    spec.validate (α := Double) = .ok () ∧ NeverEnds Double spec spec.expression ∧
      ¬ (lexicon spec).Progresses Double ∧
      ∃ remaining, compile (α := Double) spec = .error (.lex (.endless remaining)) := by
  intro spec
  have hvalid : spec.validate (α := Double) = .ok () := rfl
  have hnext : (lexicon spec).nextToken (α := Double) TokenId.start ['1'] =
      .ok (.variableName "", []) := rfl
  have hagain : (lexicon spec).nextToken (α := Double) TokenId.variableName ['1'] =
      .ok (.variableName "", []) := nextToken_repeated hnext
  have hnever : NeverEnds Double spec spec.expression := by
    have htext : spec.expression.toList = ['1'] := by decide
    unfold NeverEnds
    rw [htext]
    apply Lexicon.NeverEnds.behind (by decide) hnext
    exact NeverEnds.of_repeated (by decide) rfl hagain
  refine ⟨hvalid, hnever, ?_, compile_of_hangs hvalid (.expression hnever)⟩
  intro hprogresses
  have hshorter := hprogresses TokenId.start ['1'] _ _ (by decide) hnext
  exact Nat.lt_irrefl _ hshorter

end Model

end FormulaCalculus
