import FormulaCalculus.Token.Lexicon
import FormulaCalculus.Token.Literal

/-!
Lexing: a formula is cut into lexemes, each a token with its text and the blanks before it. At each
place a parenthesis or comma is taken first, then a unary operator, a binary operator, a function
name, a variable name, and a number literal. Of several spellings that match, the longest is taken.
-/

namespace FormulaCalculus

inductive LexError where
  /-- No token starts the remaining text. -/
  | noMatch (remaining : String)
  | disallowedAdjacency (previous operator : TokenId)
  | missingCallParen (name : String)
  | unbalancedCall (name : String)
  | arityMismatch (name : String) (expected found : Nat)
  | invalidNumber (literal : String)
  /-- Tokens without text follow each other forever. -/
  | endless (remaining : String)
  deriving DecidableEq

/-- A token, the text it was read from, and the blanks in front of it. -/
structure Lexeme (α : Type) where
  blanks : List Char
  text : List Char
  token : Token α

/-- The lexemes of a formula and how its reading ended: with the blanks behind the last lexeme, or
with an error. -/
structure Scan (α : Type) where
  lexemes : List (Lexeme α)
  ending : Except LexError (List Char)

/-- The characters that separate tokens. -/
def isBlank (c : Char) : Bool := c == ' ' || c == '\t' || c == '\r' || c == '\n'

/-- The number of commas directly inside a call whose opening parenthesis stands before the text,
`depth` parentheses deep; nothing if the call does not close. -/
def callCommas : Nat → List Char → Option Nat
  | _, [] => none
  | depth, '(' :: cs => callCommas (depth + 1) cs
  | 0, ')' :: _ => some 0
  | depth + 1, ')' :: cs => callCommas depth cs
  | 0, ',' :: cs => (callCommas 0 cs).map (· + 1)
  | depth, _ :: cs => callCommas depth cs

/-- Checks the arguments behind a function name: they are parenthesised, and as many as the function
takes. -/
def checkCall (name : String) (arity : Nat) : List Char → Except LexError Unit
  | '(' :: cs =>
    match callCommas 0 cs with
    | none => .error (.unbalancedCall name)
    | some n => if n = arity - 1 then .ok () else .error (.arityMismatch name arity (n + 1))
  | _ => .error (.missingCallParen name)

namespace Spelled

variable {τ : Type}

/-- Whether a text starts with the spelling. -/
def isPrefixOf (s : Spelled τ) (input : List Char) : Bool := s.spelling.toList.isPrefixOf input

/-- Of two candidates the one with the longer spelling, the second if they are as long. -/
def longer (best : Option (Spelled τ)) (s : Spelled τ) : Option (Spelled τ) :=
  match best with
  | none => some s
  | some b => if b.spelling.utf8ByteSize ≤ s.spelling.utf8ByteSize then some s else some b

/-- The last of the longest spellings. -/
def longest? (l : List (Spelled τ)) : Option (Spelled τ) := l.foldl longer none

end Spelled

namespace Lexicon

variable {α : Type}

/-- The unary operator in front of a text, among those that may follow the last token. -/
def unaryOperator? (l : Lexicon) (last : TokenId) (input : List Char) :
    Option (Spelled UnaryOperator) :=
  Spelled.longest? (l.unaryOperators.filter fun s =>
    s.isPrefixOf input && s.token.allowedLeft.contains last)

/-- The binary operator in front of a text; an error if it must not follow the last token. -/
def binaryOperator? (l : Lexicon) (last : TokenId) (input : List Char) :
    Except LexError (Option (Spelled BinaryOperator)) :=
  match Spelled.longest? (l.binaryOperators.filter fun s => s.isPrefixOf input) with
  | none => .ok none
  | some s =>
    if s.token.disallowedLeft.contains last then .error (.disallowedAdjacency last s.token.id)
    else .ok (some s)

/-- The longest variable name in front of a text. -/
def longestVariable? (l : Lexicon) (input : List Char) : Option String :=
  l.variableNames.find? fun name => name.toList.isPrefixOf input

/-- The longest function name in front of a text, unless a variable name is longer; an error if the
name is no well-formed call. -/
def callable? (l : Lexicon) (input : List Char) : Except LexError (Option (Spelled Function)) :=
  let least := ((l.longestVariable? input).map String.utf8ByteSize).getD 0
  match l.functions.find? fun s => s.isPrefixOf input && least ≤ s.spelling.utf8ByteSize with
  | none => .ok none
  | some s => do
    checkCall s.spelling s.token.arity (input.drop s.spelling.toList.length)
    return some s

/-- The variable name or number literal in front of a text. -/
def operand [Scalar α] (l : Lexicon) (input : List Char) :
    Except LexError (Token α × List Char) :=
  match l.longestVariable? input with
  | some name => .ok (.variableName name, name.toList)
  | none =>
    match Literal.ofPrefix? input with
    | some n =>
      match (n.constant? : Option (Constant α)) with
      | some c => .ok (.constant c, n.text)
      | none => .error (.invalidNumber (String.ofList n.digits))
    | none => .error (.noMatch (String.ofList input))

/-- The operator, function or operand in front of a text that starts with no parenthesis and no
comma. -/
def word [Scalar α] (l : Lexicon) (last : TokenId) (input : List Char) :
    Except LexError (Token α × List Char) :=
  match l.unaryOperator? last input with
  | some s => .ok (.unaryOperator s.token, s.spelling.toList)
  | none => do
    match ← l.binaryOperator? last input with
    | some s => return (.binaryOperator s.token, s.spelling.toList)
    | none =>
      match ← l.callable? input with
      | some s => return (.function s.token, s.spelling.toList)
      | none => l.operand input

/-- The first token of a text and the characters it is written with. -/
def nextToken [Scalar α] (l : Lexicon) (last : TokenId) (input : List Char) :
    Except LexError (Token α × List Char) :=
  match input with
  | '(' :: _ => .ok (.leftParen, ['('])
  | ')' :: _ => .ok (.rightParen, [')'])
  | ',' :: _ => .ok (.comma, [','])
  | _ => l.word last input

/-- Cuts a text into at most as many lexemes as the first number says. -/
def scanFrom [Scalar α] (l : Lexicon) : Nat → TokenId → List Char → Scan α
  | 0, _, input => ⟨[], .error (.endless (String.ofList input))⟩
  | fuel + 1, last, input =>
    let blanks := input.takeWhile isBlank
    let rest := input.dropWhile isBlank
    if rest.isEmpty then ⟨[], .ok blanks⟩
    else
      match l.nextToken last rest with
      | .error e => ⟨[], .error e⟩
      | .ok (token, text) =>
        let s := l.scanFrom fuel token.id (rest.drop text.length)
        { s with lexemes := ⟨blanks, text, token⟩ :: s.lexemes }

/-- More lexemes than a text can have: at one place, each token without text can be read only once
before the reading repeats itself. -/
def scanBound (l : Lexicon) (input : List Char) : Nat :=
  input.length * (l.unaryOperators.length + l.binaryOperators.length + 2) + 1

/-- Cuts a formula into lexemes. -/
def scan [Scalar α] (l : Lexicon) (source : String) : Scan α :=
  l.scanFrom (l.scanBound source.toList) TokenId.start source.toList

/-- The tokens of a formula. -/
def lex [Scalar α] (l : Lexicon) (source : String) : Except LexError (List (Token α)) :=
  let s : Scan α := l.scan source
  s.ending.map fun _ => s.lexemes.map Lexeme.token

end Lexicon

end FormulaCalculus
