import Mathlib.Data.List.Chain
import FormulaCalculus.Proofs.Token.Adjacency
import FormulaCalculus.Proofs.Token.Numeral
import FormulaCalculus.Proofs.Token.Pause
import FormulaCalculus.Scalar.Double

/-!
Spacing. Lexemes and the blanks behind the last one are the whole of the formula they are cut from.
If the spellings of the lexicon have no blanks, the tokens stay the same with other blanks, as long
as blanks that stand between two tokens are not taken away, and none are put behind the name of a
function. A token sees of what follows it the characters up to the next blank, and the delimiters
that its arguments are counted by, and both are the same.
-/

namespace FormulaCalculus

/-- Whether a text has only blanks. -/
def IsBlankRun (cs : List Char) : Prop := ∀ c ∈ cs, isBlank c = true

theorem IsBlankRun.pauses {cs : List Char} (h : IsBlankRun cs) : Pauses cs := by
  intro c hc
  exact h c (List.mem_of_head? hc)

theorem IsBlankRun.pauses_append {cs : List Char} (h : IsBlankRun cs) (hne : cs ≠ [])
    (rest : List Char) : Pauses (cs ++ rest) := by
  obtain ⟨c, cs, rfl⟩ := List.exists_cons_of_ne_nil hne
  intro d hd
  obtain rfl := Option.some.inj hd
  exact h c List.mem_cons_self

namespace Lexeme

variable {α : Type}

/-- The formula that consists of lexemes and the characters behind the last one. -/
def written : List (Lexeme α) → List Char → List Char
  | [], trailing => trailing
  | x :: xs, trailing => x.blanks ++ (x.text ++ written xs trailing)

/-- Whether a lexeme is another one with other blanks in front of it: some, if there were some. -/
structure Respaced (x y : Lexeme α) : Prop where
  token : y.token = x.token
  text : y.text = x.text
  blanks : IsBlankRun y.blanks
  ne_nil : x.blanks ≠ [] → y.blanks ≠ []

/-- Whether a lexeme may stand behind another one: no blanks follow the name of a function. -/
def Follows (x y : Lexeme α) : Prop := ∀ f, x.token = .function f → y.blanks = []

variable {xs ys : List (Lexeme α)}

theorem tokens_eq_of_respaced (h : List.Forall₂ Respaced xs ys) :
    ys.map token = xs.map token := by
  induction h with
  | nil => rfl
  | cons hxy _ ih => rw [List.map_cons, List.map_cons, hxy.token, ih]

/-- Formulas with the same lexemes are the same up to the first place where the second one has a
blank or ends. -/
theorem exists_common_front (h : List.Forall₂ Respaced xs ys) (trailing : List Char)
    {trailing' : List Char} (htrailing : IsBlankRun trailing') :
    ∃ u x y, written xs trailing = u ++ x ∧ written ys trailing' = u ++ y ∧ Pauses y := by
  induction h with
  | nil => exact ⟨[], trailing, trailing', rfl, rfl, htrailing.pauses⟩
  | @cons x y xs ys hxy tail ih =>
    by_cases hblanks : y.blanks = []
    · have hnone : x.blanks = [] := by
        by_contra hsome
        exact hxy.ne_nil hsome hblanks
      obtain ⟨u, a, b, ha, hb, hpauses⟩ := ih
      refine ⟨x.text ++ u, a, b, ?_, ?_, hpauses⟩
      · rw [written, hnone, ha, List.nil_append, List.append_assoc]
      · rw [written, hblanks, hb, hxy.text, List.nil_append, List.append_assoc]
    · refine ⟨[], _, _, rfl, rfl, ?_⟩
      exact hxy.blanks.pauses_append hblanks _

/-- Formulas with the same lexemes have the same delimiters. -/
theorem filter_isDelimiter_of_respaced (h : List.Forall₂ Respaced xs ys)
    (hxs : ∀ x ∈ xs, IsBlankRun x.blanks) {trailing trailing' : List Char}
    (htrailing : IsBlankRun trailing) (htrailing' : IsBlankRun trailing') :
    (written xs trailing).filter isDelimiter = (written ys trailing').filter isDelimiter := by
  have hnone {cs : List Char} (hcs : IsBlankRun cs) : cs.filter isDelimiter = [] :=
    Lexicon.filter_isDelimiter_of_isBlank hcs
  induction h with
  | nil => rw [written, written, hnone htrailing, hnone htrailing']
  | cons hxy _ ih =>
    obtain ⟨hx, hxs⟩ := List.forall_mem_cons.mp hxs
    simp only [written, List.filter_append, hnone hx, hnone hxy.blanks, hxy.text, ih hxs]

theorem length_le_length_written (hxs : ∀ x ∈ xs, x.text ≠ []) (trailing : List Char) :
    xs.length ≤ (written xs trailing).length := by
  induction xs with
  | nil => exact Nat.zero_le _
  | cons x xs ih =>
    obtain ⟨hx, hxs⟩ := List.forall_mem_cons.mp hxs
    have hlength := List.length_pos_iff.mpr hx
    have hrest := ih hxs
    rw [written, List.length_append, List.length_append, List.length_cons]
    omega

end Lexeme

theorem Literal.ofPrefix?_text {cs : List Char} {n : Literal} (h : ofPrefix? cs = some n) :
    ofPrefix? n.text = some n := by
  have hfront : ofPrefix? (n.text ++ cs.drop n.text.length) = some n := by
    rw [text_append_of_ofPrefix? h]
    exact h
  have halone : ofPrefix? (n.text ++ []) = some n :=
    ofPrefix?_of_endsLiteral hfront le_rfl endsLiteral_nil
  rwa [List.append_nil] at halone

namespace Lexicon

open Lexeme

variable {α : Type} [Scalar α]

/-- The texts of a token under a lexicon. -/
inductive Spells (l : Lexicon) : Token α → List Char → Prop
  | leftParen : Spells l .leftParen ['(']
  | rightParen : Spells l .rightParen [')']
  | comma : Spells l .comma [',']
  | unaryOperator {s : Spelled UnaryOperator} (hs : s ∈ l.unaryOperators) :
      Spells l (.unaryOperator s.token) s.spelling.toList
  | binaryOperator {s : Spelled BinaryOperator} (hs : s ∈ l.binaryOperators) :
      Spells l (.binaryOperator s.token) s.spelling.toList
  | function {s : Spelled Function} (hs : s ∈ l.functions) :
      Spells l (.function s.token) s.spelling.toList
  | variableName {name : String} (hname : name ∈ l.variableNames) :
      Spells l (.variableName name) name.toList
  | constant {n : Literal} {c : Constant α} (hn : Literal.ofPrefix? n.text = some n)
      (hc : n.constant? = some c) : Spells l (.constant c) n.text

variable {l : Lexicon} {last : TokenId} {cs text trailing : List Char} {t : Token α}
  {xs ys : List (Lexeme α)}

theorem Takes.spells (h : l.Takes last cs t text) : l.Spells t text := by
  cases h with
  | delimiter ht hcs =>
    cases t <;> simp only [Token.delimiter?, Option.some.injEq, reduceCtorEq] at ht <;> subst ht
    · exact .leftParen
    · exact .rightParen
    · exact .comma
  | unaryOperator h => exact .unaryOperator (unaryOperator?_isPrefixOf h).1
  | binaryOperator h => exact .binaryOperator (binaryOperator?_isPrefixOf h).1
  | function h => exact .function (callable?_isPrefixOf h).1
  | variableName h => exact .variableName (List.mem_of_find?_eq_some h)
  | constant hn hc => exact .constant (Literal.ofPrefix?_text hn) hc

theorem Spells.ne_nil (hl : l.Blankless) (h : l.Spells t text) : text ≠ [] := by
  cases h with
  | leftParen | rightParen | comma => exact List.cons_ne_nil _ _
  | unaryOperator hs => exact (hl.unaryOperators _ hs).ne_nil
  | binaryOperator hs => exact (hl.binaryOperators _ hs).ne_nil
  | function hs => exact (hl.functions _ hs).ne_nil
  | variableName hname => exact (hl.variableNames _ hname).ne_nil
  | constant hn hc =>
    obtain ⟨d, ds, hdigits, -⟩ := Literal.exists_digit hn
    rw [Literal.text, hdigits]
    exact List.cons_ne_nil _ _

/-- `Cuts l last xs trailing` holds if each of the lexemes `xs` is what is taken off the front of
the formula from there on, behind a token with id `last`. -/
inductive Cuts (l : Lexicon) : TokenId → List (Lexeme α) → List Char → Prop
  | nil {last : TokenId} {trailing : List Char} (htrailing : IsBlankRun trailing) :
      Cuts l last [] trailing
  | cons {last : TokenId} {x : Lexeme α} {xs : List (Lexeme α)} {trailing : List Char}
      (hblanks : IsBlankRun x.blanks) (hstarts : ∃ c cs, x.text = c :: cs ∧ isBlank c = false)
      (hnext : l.nextToken last (x.text ++ written xs trailing) = .ok (x.token, x.text))
      (tail : Cuts l x.token.id xs trailing) : Cuts l last (x :: xs) trailing

theorem Cuts.isBlankRun (h : l.Cuts last xs trailing) : IsBlankRun trailing := by
  induction h with
  | nil htrailing => exact htrailing
  | cons _ _ _ _ ih => exact ih

theorem Cuts.forall_mem (h : l.Cuts last xs trailing) :
    ∀ x ∈ xs, IsBlankRun x.blanks ∧ x.text ≠ [] ∧ l.Spells x.token x.text := by
  induction h with
  | nil _ => exact fun x hx => absurd hx List.not_mem_nil
  | cons hblanks hstarts hnext _ ih =>
    obtain ⟨c, cs, htext, -⟩ := hstarts
    refine List.forall_mem_cons.mpr ⟨⟨hblanks, ?_, (nextToken_takes hnext).spells⟩, ih⟩
    rw [htext]
    exact List.cons_ne_nil c cs

/-- What a scan gives out is cut off the formula piece by piece, and nothing is lost. -/
theorem cuts_of_scanFrom (hl : l.Blankless) {fuel : Nat} {input : List Char}
    (h : l.scanFrom fuel last input = ⟨xs, .ok trailing⟩) :
    l.Cuts last xs trailing ∧ written xs trailing = input := by
  induction fuel generalizing last input xs with
  | zero => simp [scanFrom] at h
  | succ fuel ih =>
    unfold scanFrom at h
    dsimp only at h
    have hinput := List.takeWhile_append_dropWhile (p := isBlank) (l := input)
    have hblanks : IsBlankRun (input.takeWhile isBlank) := fun c hc => List.mem_takeWhile_imp hc
    split at h
    · rename_i hempty
      obtain ⟨rfl, hend⟩ := Scan.mk.inj h
      obtain rfl := Except.ok.inj hend
      rw [List.isEmpty_iff.mp hempty, List.append_nil] at hinput
      exact ⟨.nil hblanks, hinput⟩
    · rename_i hrest
      split at h
      · have hending := (Scan.mk.inj h).2
        cases hending
      · rename_i t text hnext
        obtain ⟨rfl, hending⟩ := Scan.mk.inj h
        have hscan : l.scanFrom fuel t.id ((input.dropWhile isBlank).drop text.length) =
            ⟨(l.scanFrom (α := α) fuel t.id ((input.dropWhile isBlank).drop text.length)).lexemes,
              .ok trailing⟩ := by
          rw [← hending]
        obtain ⟨hcuts, hwritten⟩ := ih hscan
        have htakes := nextToken_takes hnext
        have hwhole := htakes.starts
        rw [← hwritten] at hwhole
        -- the text is not empty, so it starts where the blanks end
        have hstarts : ∃ c cs, text = c :: cs ∧ isBlank c = false := by
          obtain ⟨c, cs, rfl⟩ := List.exists_cons_of_ne_nil (htakes.spells.ne_nil hl)
          refine ⟨c, cs, rfl, ?_⟩
          have hhead := List.head?_dropWhile_not isBlank input
          rw [← hwhole, List.cons_append] at hhead
          simpa using hhead
        refine ⟨.cons hblanks hstarts ?_ hcuts, ?_⟩
        · rw [hwhole]
          exact hnext
        · rw [written, hwhole]
          exact hinput

/-- Lexemes that are cut off a formula are what a scan of it gives out. -/
theorem scanFrom_of_cuts (h : l.Cuts last xs trailing) {fuel : Nat} (hfuel : xs.length < fuel) :
    l.scanFrom fuel last (written xs trailing) = ⟨xs, .ok trailing⟩ := by
  induction h generalizing fuel with
  | @nil last trailing htrailing =>
    obtain ⟨fuel, rfl⟩ := Nat.exists_eq_succ_of_ne_zero (by omega : fuel ≠ 0)
    have htake : trailing.takeWhile isBlank = trailing := List.takeWhile_eq_self_iff.mpr htrailing
    simp [scanFrom, written, dropWhile_isBlank_eq_nil.mpr htrailing, htake]
  | @cons last x xs trailing hblanks hstarts hnext tail ih =>
    obtain ⟨fuel, rfl⟩ := Nat.exists_eq_succ_of_ne_zero (by omega : fuel ≠ 0)
    obtain ⟨c, cs, htext, hc⟩ := hstarts
    have hstop : isBlank c ≠ true := by
      rw [hc]
      exact Bool.false_ne_true
    have htake : (written (x :: xs) trailing).takeWhile isBlank = x.blanks := by
      rw [written, List.takeWhile_append_of_pos hblanks, htext, List.cons_append,
        List.takeWhile_cons_of_neg hstop, List.append_nil]
    have hdrop : (written (x :: xs) trailing).dropWhile isBlank =
        x.text ++ written xs trailing := by
      rw [written, List.dropWhile_append_of_pos hblanks, htext, List.cons_append,
        List.dropWhile_cons_of_neg hstop]
    have hempty : (x.text ++ written xs trailing).isEmpty = false := by
      rw [htext]
      rfl
    have hrest := ih (by simpa using hfuel)
    simp [scanFrom, htake, hdrop, hempty, hnext, hrest]

/-- The text behind the name of a function starts with a parenthesis. -/
theorem exists_written_of_function {x : Lexeme α} {f : Function}
    (h : l.nextToken last (x.text ++ written xs trailing) = .ok (x.token, x.text))
    (hf : x.token = .function f) : ∃ more, written xs trailing = '(' :: more := by
  have htakes := nextToken_takes h
  generalize hcs : x.text ++ written xs trailing = cs at htakes
  generalize htext : x.text = text at htakes hcs
  rw [hf] at htakes
  cases htakes with
  | delimiter ht _ => nomatch ht
  | function hcall =>
    obtain ⟨more, hmore, -⟩ := exists_drop_of_callable? hcall
    rw [← hcs, List.drop_left] at hmore
    exact ⟨more, hmore⟩

/-- A parenthesis that comes first starts the first lexeme, without blanks in front of it. -/
theorem Cuts.exists_lexeme_of_paren (h : l.Cuts last xs trailing) {more : List Char}
    (hmore : written xs trailing = '(' :: more) :
    ∃ y ys cs, xs = y :: ys ∧ y.blanks = [] ∧ y.text = '(' :: cs := by
  have hparen {cs : List Char} (hcs : IsBlankRun ('(' :: cs)) : False :=
    absurd (hcs '(' List.mem_cons_self) (by decide)
  cases h with
  | nil htrailing =>
    rw [written] at hmore
    rw [hmore] at htrailing
    exact (hparen htrailing).elim
  | @cons last y ys trailing hblanks hstarts hnext tail =>
    obtain ⟨c, cs, htext, -⟩ := hstarts
    cases hys : y.blanks with
    | nil =>
      rw [written, hys, htext] at hmore
      obtain ⟨rfl, -⟩ := List.cons.inj hmore
      exact ⟨y, ys, cs, rfl, hys, htext⟩
    | cons b bs =>
      rw [written, hys, List.cons_append] at hmore
      obtain ⟨rfl, -⟩ := List.cons.inj hmore
      rw [hys] at hblanks
      exact (hparen hblanks).elim

/-- Behind the name of a function a call is checked alike in a formula with other blanks. -/
theorem sameCall_of_respaced {x x' : Lexeme α} {f : Function} {trailing' : List Char}
    (h : l.nextToken last (x.text ++ written xs trailing) = .ok (x.token, x.text))
    (hf : x.token = .function f) (hcuts : l.Cuts x.token.id xs trailing)
    (hx : x'.token = x.token) (hxs : List.Forall₂ Respaced xs ys)
    (hfollows : (x' :: ys).IsChain Follows) (htrailing : IsBlankRun trailing') :
    SameCall (written xs trailing) (written ys trailing') where
  head := by
    obtain ⟨more, hmore⟩ := exists_written_of_function h hf
    obtain ⟨y, xs, cs, rfl, hnone, htext⟩ := hcuts.exists_lexeme_of_paren hmore
    cases hxs with
    | @cons y y' xs ys hy tail =>
      have hnone' : y'.blanks = [] := by
        apply (List.isChain_cons_cons.mp hfollows).1 f
        rw [hx, hf]
      rw [written, written, hnone, hnone', hy.text, htext]
      rfl
  delimiters :=
    filter_isDelimiter_of_respaced hxs (fun y hy => (hcuts.forall_mem y hy).1) hcuts.isBlankRun
      htrailing

/-- Lexemes are cut off a formula with other blanks as they are cut off the formula itself. -/
theorem Cuts.respace (hl : l.Blankless) (h : l.Cuts last xs trailing)
    (hxs : List.Forall₂ Respaced xs ys) (hfollows : ys.IsChain Follows) {trailing' : List Char}
    (htrailing : IsBlankRun trailing') : l.Cuts last ys trailing' := by
  induction h generalizing ys with
  | nil _ =>
    cases hxs with
    | nil => exact .nil htrailing
  | @cons last x xs trailing hblanks hstarts hnext tail ih =>
    cases hxs with
    | @cons x y xs ys hxy hxs =>
      have htail := ih hxs hfollows.tail
      obtain ⟨u, a, b, ha, hb, hpauses⟩ := exists_common_front hxs trailing htrailing
      have hother : l.nextToken last (x.text ++ written ys trailing') = .ok (x.token, x.text) := by
        have hcall : ∀ f, x.token = .function f →
            SameCall (written xs trailing) (written ys trailing') := fun f hf =>
          sameCall_of_respaced hnext hf tail hxy.token hxs hfollows htrailing
        rw [ha, hb] at hcall
        rw [ha, ← List.append_assoc] at hnext
        rw [hb, ← List.append_assoc]
        obtain ⟨c, cs, htext, -⟩ := hstarts
        apply nextToken_of_pauses hl _ hpauses hnext
        · rw [List.length_append]
          exact Nat.le_add_right _ _
        · intro f hf
          rw [List.append_assoc, List.append_assoc, List.drop_left, List.drop_left]
          exact hcall f hf
        · rw [htext]
          exact List.cons_ne_nil _ _
      refine .cons hxy.blanks ?_ ?_ ?_
      · rw [hxy.text]
        exact hstarts
      · rw [hxy.text, hxy.token]
        exact hother
      · rw [hxy.token]
        exact htail

/-- A formula that is lexed is the blanks and the texts of its tokens, one behind the other, and has
the same tokens with other blanks. -/
theorem lex_spacing (hl : l.Blankless) {source : String} {ts : List (Token α)}
    (h : l.lex source = .ok ts) :
    ∃ xs trailing, l.scan source = ⟨xs, .ok trailing⟩ ∧ xs.map Lexeme.token = ts ∧
      source.toList = written xs trailing ∧ IsBlankRun trailing ∧
      (∀ x ∈ xs, IsBlankRun x.blanks ∧ x.text ≠ [] ∧ l.Spells x.token x.text) ∧
      ∀ ys trailing', List.Forall₂ Respaced xs ys → ys.IsChain Follows → IsBlankRun trailing' →
        l.lex (String.ofList (written ys trailing')) = .ok ts := by
  obtain ⟨xs, trailing, hscan, htokens⟩ : ∃ xs trailing,
      l.scan source = ⟨xs, .ok trailing⟩ ∧ xs.map Lexeme.token = ts := by
    obtain ⟨hreads, hlength⟩ := lex_eq_ok_iff.mp h
    exact scanFrom_of_reads hreads hlength
  obtain ⟨hcuts, hwritten⟩ := cuts_of_scanFrom hl hscan
  refine ⟨xs, trailing, hscan, htokens, hwritten.symm, hcuts.isBlankRun, hcuts.forall_mem, ?_⟩
  intro ys trailing' hys hfollows htrailing
  have hother := hcuts.respace hl hys hfollows htrailing
  have hbound : ys.length < l.scanBound (String.ofList (written ys trailing')).toList := by
    have hlength := length_le_length_written (fun y hy => (hother.forall_mem y hy).2.1) trailing'
    have hmul := Nat.le_mul_of_pos_right (written ys trailing').length
      (by omega : 0 < l.unaryOperators.length + l.binaryOperators.length + 2)
    rw [String.toList_ofList, scanBound]
    omega
  have hscan' : l.scan (String.ofList (written ys trailing')) = ⟨ys, .ok trailing'⟩ := by
    rw [scan]
    rw [String.toList_ofList] at hbound ⊢
    exact scanFrom_of_cuts hother hbound
  have htokens' := tokens_eq_of_respaced hys
  unfold lex
  rw [hscan']
  dsimp only [Except.map]
  rw [htokens', htokens]

omit [Scalar α] in
/-- The standard lexicon has no blanks in its spellings. -/
theorem standard_blankless {names : List String} (hnames : ∀ n ∈ names, IsWord n.toList) :
    (standard.withVariables names).Blankless where
  unaryOperators := by
    rw [withVariables_unaryOperators]
    simp only [isWord_iff_all]
    decide
  binaryOperators := by
    rw [withVariables_binaryOperators]
    simp only [isWord_iff_all]
    decide
  functions := by
    rw [withVariables_functions]
    simp only [isWord_iff_all]
    decide
  variableNames := by
    intro n hn
    exact hnames n ((mem_variableNames_withVariables.mp hn).resolve_right List.not_mem_nil)

/-- Blanks put around the argument of a call and behind an operator. -/
theorem lex_spacing_call :
    let l := standard.withVariables ["x"]
    let sin : Token Double := .function ⟨UnaryFn.sin.id, 1⟩
    let sub : Token Double :=
      .binaryOperator ⟨TokenId.sub, 3, true, false, true, standardDisallowedLeft⟩
    let xs : List (Lexeme Double) := [⟨[], ['s', 'i', 'n'], sin⟩, ⟨[], ['('], .leftParen⟩,
      ⟨[], ['x'], .variableName "x"⟩, ⟨[], [')'], .rightParen⟩, ⟨[' '], ['-'], sub⟩,
      ⟨[], ['1'], .constant (.unity Shape.scalar)⟩]
    let ys : List (Lexeme Double) := [⟨['\n'], ['s', 'i', 'n'], sin⟩, ⟨[], ['('], .leftParen⟩,
      ⟨[' ', ' '], ['x'], .variableName "x"⟩, ⟨['\t'], [')'], .rightParen⟩, ⟨['\r'], ['-'], sub⟩,
      ⟨[' '], ['1'], .constant (.unity Shape.scalar)⟩]
    l.Blankless ∧ l.lex "sin(x) -1" = .ok (xs.map token) ∧ List.Forall₂ Respaced xs ys ∧
      ys.IsChain Follows ∧ IsBlankRun [' '] ∧
        l.lex "\nsin(  x\t)\r- 1 " = .ok (xs.map token) := by
  intro l sin sub xs ys
  have hl : l.Blankless := by
    apply standard_blankless
    simp only [isWord_iff_all]
    decide
  have hlex : l.lex "sin(x) -1" = .ok (xs.map token) := rfl
  have hys : List.Forall₂ Respaced xs ys := by
    refine .cons ?_ (.cons ?_ (.cons ?_ (.cons ?_ (.cons ?_ (.cons ?_ .nil)))))
    all_goals constructor <;> simp [IsBlankRun, isBlank]
  have hfollows : ys.IsChain Follows := by
    simp [ys, Follows, sin, sub]
  have htrailing : IsBlankRun [' '] := by
    simp [IsBlankRun, isBlank]
  have hcut : l.scan "sin(x) -1" = ⟨xs, .ok []⟩ := rfl
  obtain ⟨cut, trailing, hscan, -, -, -, -, hall⟩ := lex_spacing hl hlex
  rw [hcut] at hscan
  obtain ⟨rfl, -⟩ := Scan.mk.inj hscan
  exact ⟨hl, hlex, hys, hfollows, htrailing, hall ys [' '] hys hfollows htrailing⟩

end Lexicon

end FormulaCalculus
