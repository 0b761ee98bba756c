import FormulaCalculus.Proofs.Postfix.Balance

/-!
Where tokens stand. For every token that is given out the lexer has looked at the token in front of
it, if it is an operator, and at the characters behind it, if it is a function. No other token is
written with a parenthesis or comma, so what was counted among the characters holds of the tokens:
each function has parentheses that close, and as many arguments as it takes.
-/

namespace FormulaCalculus

namespace Token

variable {α : Type}

/-- The id of the last token; the given one if there is none. -/
def lastId (i : TokenId) : List (Token α) → TokenId
  | [] => i
  | t :: ts => lastId t.id ts

/-- The number of commas outside parentheses, with `depth` open ones in front of the tokens. -/
def outerCommas : Nat → List (Token α) → Nat
  | _, [] => 0
  | depth, leftParen :: ts => outerCommas (depth + 1) ts
  | depth, rightParen :: ts => outerCommas (depth - 1) ts
  | 0, comma :: ts => outerCommas 0 ts + 1
  | depth, _ :: ts => outerCommas depth ts

/-- Whether tokens start with the parenthesised arguments of a function, one comma less than there
are arguments. -/
def TakesArguments (arity : Nat) (ts : List (Token α)) : Prop :=
  ∃ arguments rest, ts = leftParen :: (arguments ++ rightParen :: rest) ∧ Balanced arguments ∧
    outerCommas 0 arguments = arity - 1

/-- Whether a token may stand behind a token with id `last` and in front of others. -/
def Placed (last : TokenId) (after : List (Token α)) : Token α → Prop
  | unaryOperator op => last ∈ op.allowedLeft
  | binaryOperator op => last ∉ op.disallowedLeft
  | function f => TakesArguments f.arity after
  | _ => True

/-- The parenthesis that ends the count of the commas of a call is the partner of the one in front,
and the commas are the outer ones in between. -/
theorem exists_arguments {depth n : Nat} {ts : List (Token α)}
    (h : callCommas depth (ts.filterMap delimiter?) = some n) :
    ∃ arguments rest, ts = arguments ++ rightParen :: rest ∧
      parenDepth depth (arguments.filterMap delimiter?) = some 0 ∧
        outerCommas depth arguments = n := by
  induction ts generalizing depth n with
  | nil => cases depth <;> nomatch h
  | cons t ts ih =>
    cases t with
    | leftParen =>
      have hinner : callCommas (depth + 1) (ts.filterMap delimiter?) = some n := by
        cases depth <;> exact h
      obtain ⟨arguments, rest, rfl, hdepth, hcommas⟩ := ih hinner
      exact ⟨leftParen :: arguments, rest, rfl, hdepth, hcommas⟩
    | rightParen =>
      cases depth with
      | zero =>
        -- no parenthesis is open in between, so this one is the partner
        have hn : 0 = n := Option.some.inj h
        exact ⟨[], ts, rfl, rfl, hn⟩
      | succ depth =>
        obtain ⟨arguments, rest, rfl, hdepth, hcommas⟩ := ih h
        exact ⟨rightParen :: arguments, rest, rfl, hdepth, hcommas⟩
    | comma =>
      cases depth with
      | zero =>
        obtain ⟨m, hm, rfl⟩ := Option.map_eq_some_iff.mp h
        obtain ⟨arguments, rest, rfl, hdepth, hcommas⟩ := ih hm
        exact ⟨comma :: arguments, rest, rfl, hdepth, congrArg (· + 1) hcommas⟩
      | succ depth =>
        obtain ⟨arguments, rest, rfl, hdepth, hcommas⟩ := ih h
        exact ⟨comma :: arguments, rest, rfl, hdepth, hcommas⟩
    | _ =>
      obtain ⟨arguments, rest, rfl, hdepth, hcommas⟩ := ih h
      refine ⟨_ :: arguments, rest, rfl, hdepth, ?_⟩
      cases depth <;> exact hcommas

end Token

namespace Lexicon

open Token (lastId outerCommas Placed TakesArguments)

variable {α : Type} [Scalar α] {l : Lexicon} {last : TokenId} {cs input text : List Char}
  {t : Token α} {ts : List (Token α)}

/-- The arguments that are counted in front of the reading are those that are read. -/
theorem Reads.takesArguments (hl : l.Plain) {arity : Nat} (h : Reads l last ('(' :: cs) ts)
    (hcommas : callCommas 0 cs = some (arity - 1)) : TakesArguments arity ts := by
  obtain ⟨us, rfl⟩ := h.exists_leftParen
  have hdelimiters : cs.filter isDelimiter = us.filterMap Token.delimiter? := by
    have hall := h.filter_isDelimiter hl
    rw [List.filter_cons_of_pos (by decide), Token.filterMap_delimiter?_cons] at hall
    exact List.tail_eq_of_cons_eq hall
  rw [← callCommas_filter, hdelimiters] at hcommas
  obtain ⟨arguments, rest, rfl, hdepth, houter⟩ := Token.exists_arguments hcommas
  exact ⟨arguments, rest, rfl, balanced_iff.mpr hdepth, houter⟩

/-- A token that is taken stands where it may, if what is behind it is read. -/
theorem Takes.placed (hl : l.Plain) (h : l.Takes last cs t text)
    (tail : Reads l t.id (cs.drop text.length) ts) : t.Placed last ts := by
  cases h with
  | unaryOperator h => exact mem_allowedLeft_of_unaryOperator? h
  | binaryOperator h => exact not_mem_disallowedLeft_of_binaryOperator? h
  | function h =>
    obtain ⟨more, hmore, hcommas⟩ := exists_drop_of_callable? h
    rw [hmore] at tail
    exact tail.takesArguments hl hcommas
  | delimiter ht hcs => cases t <;> trivial
  | variableName h => trivial
  | constant hn hc => trivial

/-- Every token that is read stands where it may. -/
theorem Reads.placed (hl : l.Plain) (h : Reads l last input ts) {before after : List (Token α)}
    (hts : ts = before ++ t :: after) : t.Placed (lastId last before) after := by
  induction h generalizing before with
  | blanks h => cases before <;> nomatch hts
  | token hrest h tail ih =>
    cases before with
    | nil =>
      obtain ⟨rfl, rfl⟩ := List.cons.inj hts
      exact (nextToken_takes h).placed hl tail
    | cons u before =>
      obtain ⟨rfl, hbehind⟩ := List.cons.inj hts
      exact ih hbehind

/-- What a lexicon whose spellings have no delimiters promises of its tokens: an operator stands
behind a token that it may follow, and a function stands in front of a parenthesis that has its
partner, with one outer comma less in between than the function has arguments. -/
theorem lex_placed (hl : l.Plain) {source : String} (h : l.lex source = .ok ts) :
    (∀ before op after, ts = before ++ .unaryOperator op :: after →
      lastId TokenId.start before ∈ op.allowedLeft) ∧
    (∀ before op after, ts = before ++ .binaryOperator op :: after →
      lastId TokenId.start before ∉ op.disallowedLeft) ∧
    ∀ before f after, ts = before ++ .function f :: after →
      ∃ arguments rest, after = .leftParen :: (arguments ++ .rightParen :: rest) ∧
        Balanced arguments ∧ outerCommas 0 arguments = f.arity - 1 := by
  have hreads := (lex_eq_ok_iff.mp h).1
  refine ⟨?_, ?_, ?_⟩
  · intro before op after hts
    exact hreads.placed hl hts
  · intro before op after hts
    exact hreads.placed hl hts
  · intro before f after hts
    exact hreads.placed hl hts

/-- A call without arguments inside a call of two, behind an operator in front of another call. -/
theorem lex_placed_nested :
    let l := (((Lexicon.empty.withVariable "x").withUnaryOperator "~"
      ⟨62, 10, false, [TokenId.leftParen]⟩).withFunction "one" ⟨60, 0⟩).withFunction "pair" ⟨61, 2⟩
    let front : List (Token Double) := [.function ⟨61, 2⟩, .leftParen]
    let call : List (Token Double) := [.function ⟨61, 2⟩, .leftParen, .variableName "x", .comma,
      .variableName "x", .rightParen]
    let noArguments : List (Token Double) := [.function ⟨60, 0⟩, .leftParen, .rightParen]
    let behind := .leftParen :: .unaryOperator ⟨62, 10, false, [TokenId.leftParen]⟩ ::
      (call ++ .comma :: (noArguments ++ [.rightParen]))
    l.lex "pair(~pair(x,x),one())" = .ok (.function ⟨61, 2⟩ :: behind) ∧
      lastId TokenId.start front ∈ [TokenId.leftParen] ∧
        ∃ arguments rest, behind = .leftParen :: (arguments ++ .rightParen :: rest) ∧
          Balanced arguments ∧ outerCommas 0 arguments = 1 := by
  intro l front call noArguments behind
  have hplain : l.Plain := by
    constructor <;> simp only [isPlain_iff_all] <;> decide
  have hlex : l.lex "pair(~pair(x,x),one())" = .ok (.function ⟨61, 2⟩ :: behind) := rfl
  obtain ⟨hunary, -, hcalls⟩ := lex_placed hplain hlex
  exact ⟨hlex, hunary front _ _ rfl, hcalls [] ⟨61, 2⟩ behind rfl⟩

end Lexicon

end FormulaCalculus
