import FormulaCalculus.Proofs.Token.Standard

/-!
What the lexer has checked of the tokens it gives out. Under every lexicon a parenthesis follows the
name of a function. Under the standard one it also looks where a minus and where a binary operator
stands, but never at what stands in front of an operand, a parenthesis or a comma.
-/

namespace FormulaCalculus

open Lexicon

/-- The lists of tokens that can be read behind a token with id `last`. -/
inductive Lexed {α : Type} : TokenId → List (Token α) → Prop
  | nil {last : TokenId} : Lexed last []
  | operand {last : TokenId} {t : Token α} {ts : List (Token α)} (ht : t.isOperand = true)
      (tail : Lexed t.id ts) : Lexed last (t :: ts)
  | delimiter {last : TokenId} {t : Token α} {ts : List (Token α)} {d : Char}
      (ht : t.delimiter? = some d) (tail : Lexed t.id ts) : Lexed last (t :: ts)
  | minus {last : TokenId} {ts : List (Token α)} (hlast : last ∈ standardAllowedLeft)
      (tail : Lexed TokenId.neg ts) : Lexed last (.unaryOperator minus :: ts)
  | binary {last : TokenId} {o : Spelled BinaryOperator} {ts : List (Token α)}
      (ho : o ∈ standardBinaryOperators) (hlast : last ∉ standardDisallowedLeft)
      (tail : Lexed o.token.id ts) : Lexed last (.binaryOperator o.token :: ts)
  | call {last : TokenId} {s : Spelled Function} {ts : List (Token α)} (hs : s ∈ standardFunctions)
      (tail : Lexed TokenId.leftParen ts) : Lexed last (.function s.token :: .leftParen :: ts)

theorem Lexed.of_leftParen {α : Type} {last : TokenId} {ts : List (Token α)}
    (h : Lexed last (.leftParen :: ts)) : Lexed TokenId.leftParen ts := by
  cases h with
  | operand ht tail => exact Bool.noConfusion ht
  | delimiter ht tail => exact tail

/-- The lists of tokens in which a parenthesis directly follows the name of each function. -/
inductive CallsOpen {α : Type} : List (Token α) → Prop
  | nil : CallsOpen []
  | token {t : Token α} {ts : List (Token α)} (hstart : t ≠ .start) (hname : ∀ f, t ≠ .function f)
      (tail : CallsOpen ts) : CallsOpen (t :: ts)
  | call {f : Function} {ts : List (Token α)} (tail : CallsOpen ts) :
      CallsOpen (.function f :: .leftParen :: ts)

theorem CallsOpen.of_leftParen {α : Type} {ts : List (Token α)}
    (h : CallsOpen (.leftParen :: ts)) : CallsOpen ts := by
  cases h with
  | token hstart hname tail => exact tail

namespace Lexicon

variable {α : Type} {names : List String} {last : TokenId} {cs text : List Char} {t : Token α}

/-- A unary operator is taken only behind a token that it may follow. -/
theorem mem_allowedLeft_of_unaryOperator? {l : Lexicon} {s : Spelled UnaryOperator}
    (h : l.unaryOperator? last cs = some s) : last ∈ s.token.allowedLeft := by
  have hmatch := (List.mem_filter.mp (Spelled.longest?_mem h)).2
  exact List.contains_iff_mem.mp (Bool.and_eq_true_iff.mp hmatch).2

/-- A binary operator is taken only behind a token that it may follow. -/
theorem not_mem_disallowedLeft_of_binaryOperator? {l : Lexicon} {s : Spelled BinaryOperator}
    (h : l.binaryOperator? last cs = .ok (some s)) : last ∉ s.token.disallowedLeft := by
  intro hlast
  unfold binaryOperator? at h
  split at h
  · simp at h
  · split at h
    · simp at h
    · rename_i hallowed
      obtain rfl := Option.some.inj (Except.ok.inj h)
      exact hallowed (List.contains_iff_mem.mpr hlast)

theorem unaryOperator?_standard {s : Spelled UnaryOperator}
    (h : (standard.withVariables names).unaryOperator? last cs = some s) :
    s.token = minus ∧ last ∈ standardAllowedLeft := by
  have hs := (unaryOperator?_isPrefixOf h).1
  have hlast := mem_allowedLeft_of_unaryOperator? h
  rw [withVariables_unaryOperators] at hs
  rw [List.mem_singleton.mp hs] at hlast ⊢
  exact ⟨rfl, hlast⟩

theorem binaryOperator?_standard {s : Spelled BinaryOperator}
    (h : (standard.withVariables names).binaryOperator? last cs = .ok (some s)) :
    s ∈ standardBinaryOperators ∧ last ∉ standardDisallowedLeft := by
  have hmem := (binaryOperator?_isPrefixOf h).1
  rw [withVariables_binaryOperators] at hmem
  have hleft : s.token.disallowedLeft = standardDisallowedLeft := by
    have hall : ∀ s ∈ standardBinaryOperators, s.token.disallowedLeft = standardDisallowedLeft := by
      decide
    exact hall s hmem
  have hlast := not_mem_disallowedLeft_of_binaryOperator? h
  rw [hleft] at hlast
  exact ⟨hmem, hlast⟩

/-- A call has its parenthesis directly behind the name, and the parenthesis closes behind one comma
less than the function has arguments. -/
theorem exists_drop_of_callable? {l : Lexicon} {s : Spelled Function}
    (h : l.callable? cs = .ok (some s)) :
    ∃ more, cs.drop s.spelling.toList.length = '(' :: more ∧
      callCommas 0 more = some (s.token.arity - 1) := by
  unfold callable? at h
  dsimp only at h
  split at h
  · nomatch h
  · obtain ⟨u, hcheck, h⟩ := exists_of_bind_eq_ok h
    obtain rfl := Option.some.inj (Except.ok.inj h)
    unfold checkCall at hcheck
    split at hcheck
    · rename_i more hdrop
      split at hcheck
      · nomatch hcheck
      · rename_i n hn
        split at hcheck
        · rename_i hcount
          rw [hcount] at hn
          exact ⟨more, hdrop, hn⟩
        · nomatch hcheck
    · nomatch hcheck

variable [Scalar α]

theorem Takes.lexed {ts : List (Token α)} (h : (standard.withVariables names).Takes last cs t text)
    (tail : Lexed t.id ts)
    (hcall : ∀ more, cs.drop text.length = '(' :: more → ∃ us, ts = .leftParen :: us) :
    Lexed last (t :: ts) := by
  cases h with
  | delimiter ht hcs => exact .delimiter ht tail
  | unaryOperator h =>
    obtain ⟨hminus, hlast⟩ := unaryOperator?_standard h
    rw [hminus] at tail ⊢
    exact .minus hlast tail
  | binaryOperator h =>
    obtain ⟨ho, hlast⟩ := binaryOperator?_standard h
    exact .binary ho hlast tail
  | function h =>
    have hs := (callable?_isPrefixOf h).1
    rw [withVariables_functions] at hs
    obtain ⟨more, hmore, -⟩ := exists_drop_of_callable? h
    obtain ⟨us, rfl⟩ := hcall more hmore
    exact .call hs tail.of_leftParen
  | variableName h | constant hn hc => exact .operand rfl tail

/-- A text that starts with a parenthesis is read as one. -/
theorem Reads.exists_leftParen {l : Lexicon} {ts : List (Token α)}
    (h : Reads l last ('(' :: cs) ts) : ∃ us, ts = .leftParen :: us := by
  have hdrop : ('(' :: cs).dropWhile isBlank = '(' :: cs := List.dropWhile_cons_of_neg (by decide)
  cases h with
  | blanks h => exact absurd (h '(' (by simp)) (by decide)
  | token hrest h tail =>
    rw [hdrop] at h
    obtain ⟨rfl, -⟩ := Prod.mk.inj (Except.ok.inj h)
    exact ⟨_, rfl⟩

theorem Reads.callsOpen {l : Lexicon} {ts : List (Token α)} (h : Reads l last cs ts) :
    CallsOpen ts := by
  induction h with
  | blanks h => exact .nil
  | @token last input text t ts hrest h tail ih =>
    cases nextToken_takes h with
    | function hs =>
      obtain ⟨more, hmore, -⟩ := exists_drop_of_callable? hs
      rw [hmore] at tail
      obtain ⟨us, rfl⟩ := tail.exists_leftParen
      exact .call ih.of_leftParen
    | delimiter ht hcs =>
      apply CallsOpen.token ?_ ?_ ih
      · rintro rfl
        nomatch ht
      · rintro f rfl
        nomatch ht
    | _ => exact .token (by simp) (by simp) ih

/-- What is read has passed the checks of the lexer. -/
theorem Reads.lexed {ts : List (Token α)}
    (h : Reads (standard.withVariables names) last cs ts) : Lexed last ts := by
  induction h with
  | blanks h => exact .nil
  | @token last input text t ts hrest h tail ih =>
    refine (nextToken_takes h).lexed ih ?_
    intro more hmore
    rw [hmore] at tail
    exact tail.exists_leftParen

end Lexicon

end FormulaCalculus
