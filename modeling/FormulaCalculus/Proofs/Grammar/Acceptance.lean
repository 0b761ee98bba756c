import FormulaCalculus.Proofs.Grammar.Derivations
import FormulaCalculus.Proofs.Postfix.Weight
import FormulaCalculus.Proofs.Token.Adjacency
import FormulaCalculus.Proofs.Call.Arguments

/-!
Which of the formulas that compile are infix formulas. Compilation checks where operators stand and
that one tree is left in the end; it does not check that operands are apart and that commas stand
between arguments. These two are exactly what an accepted list of tokens can lack.
-/

namespace FormulaCalculus

open Lexicon

variable {α β : Type}

/-- A binary operator may follow where an operand has ended. -/
theorem Token.endsOperand_iff {t : Token α} (ht : t.isOperand = true ∨ ∃ d, t.delimiter? = some d) :
    t.endsOperand = true ↔ t.id ∉ standardDisallowedLeft := by
  cases t with
  | constant c => cases c <;> (simp only [endsOperand, id, Constant.id, true_iff]; decide)
  | variableName _ | rightParen => exact iff_of_true rfl (by simp only [id]; decide)
  | leftParen | comma => exact iff_of_false (by simp [endsOperand]) (by simp only [id]; decide)
  | _ => simp [Token.isOperand, Token.delimiter?] at ht

/-- The most that tokens can weigh behind a place: one for the operand that is to come there, and
one for each comma. -/
def capacity (ended : Bool) (commas : List Nat) : Int := (if ended then 0 else 1) + commas.sum

theorem capacity_false (commas : List Nat) : capacity false commas = 1 + commas.sum := rfl

theorem capacity_true (commas : List Nat) : capacity true commas = commas.sum := Int.zero_add _

theorem capacity_cons (ended : Bool) (n : Nat) (commas : List Nat) :
    capacity ended (n :: commas) = n + capacity ended commas := by
  unfold capacity
  rw [List.sum_cons]
  omega

/-- Where an operand starts, none has just ended. -/
theorem eq_false_of_startsOperand {ended : Bool} {t : Token α} {ts : List (Token α)}
    (hfirst : ended = true → ∀ u ∈ (t :: ts).head?, u.startsOperand = false)
    (ht : t.startsOperand = true) : ended = false := by
  refine Bool.eq_false_iff.mpr fun hended => ?_
  have hnot := hfirst hended t rfl
  rw [ht] at hnot
  exact Bool.noConfusion hnot

/-- A parenthesis closes where all its commas have come. -/
theorem exists_commas_of_rightParen {commas : List Nat} {ts : List (Token α)}
    (h : commasFit commas (.rightParen :: ts) = true) :
    ∃ outer, commas = 0 :: outer ∧ commasFit outer ts = true := by
  cases commas with
  | nil => exact Bool.noConfusion h
  | cons n outer =>
    cases n with
    | zero => exact ⟨outer, rfl, h⟩
    | succ n => exact Bool.noConfusion h

/-- A comma stands where one is still to come. -/
theorem exists_commas_of_comma {commas : List Nat} {ts : List (Token α)}
    (h : commasFit commas (.comma :: ts) = true) :
    ∃ n outer, commas = (n + 1) :: outer ∧ commasFit (n :: outer) ts = true := by
  cases commas with
  | nil => exact Bool.noConfusion h
  | cons n outer =>
    cases n with
    | zero => exact Bool.noConfusion h
    | succ n => exact ⟨n, outer, rfl, h⟩

/-- Lexed tokens whose operands are apart and whose commas fit weigh as much as they can only if the
automaton accepts them. -/
theorem Lexed.accepts {last : TokenId} {ts : List (Token α)} (h : Lexed last ts) (ended : Bool)
    (hended : ended = true ↔ last ∉ standardDisallowedLeft)
    (hfirst : ended = true → ∀ t ∈ ts.head?, t.startsOperand = false)
    (hchain : ts.IsChain Token.Apart) (commas : List Nat) (hfit : commasFit commas ts = true) :
    weight ts ≤ capacity ended commas ∧
      (weight ts = capacity ended commas → Accepts ended commas ts) := by
  induction h generalizing ended commas with
  | nil =>
    obtain rfl := List.isEmpty_iff.mp hfit
    cases ended with
    | false => exact ⟨by simp [capacity], fun h => by simp [capacity] at h⟩
    | true => exact ⟨by simp [capacity], fun _ => .done⟩
  | @operand last t ts ht tail ih =>
    obtain ⟨hnext, hrest⟩ := List.isChain_cons.mp hchain
    have hends : t.endsOperand = true := by
      cases t <;> first | rfl | exact Bool.noConfusion ht
    have hstarts : t.startsOperand = true := by
      cases t <;> first | rfl | exact Bool.noConfusion ht
    have hfit' : commasFit commas ts = true := by
      cases t <;> first | exact hfit | exact Bool.noConfusion ht
    obtain rfl := eq_false_of_startsOperand hfirst hstarts
    have hid : true = true ↔ t.id ∉ standardDisallowedLeft := by
      rw [← Token.endsOperand_iff (Or.inl ht), hends]
    obtain ⟨hle, haccepts⟩ := ih true hid (fun _ u hu => hnext u hu hends) hrest commas hfit'
    have hweight := Token.weight_of_isOperand ht
    rw [capacity_true] at hle haccepts
    rw [capacity_false, weight_cons]
    exact ⟨by omega, fun h => .operand ht (haccepts (by omega))⟩
  | @delimiter last t ts d ht tail ih =>
    obtain ⟨hnext, hrest⟩ := List.isChain_cons.mp hchain
    have hbehind := ih t.endsOperand (Token.endsOperand_iff (Or.inr ⟨d, ht⟩))
      (fun hends u hu => hnext u hu hends) hrest
    cases t with
    | leftParen =>
      obtain rfl := eq_false_of_startsOperand hfirst rfl
      obtain ⟨hle, haccepts⟩ := hbehind (0 :: commas) hfit
      simp only [Token.endsOperand, capacity_cons] at hle haccepts
      rw [weight_cons, Token.weight]
      exact ⟨by omega, fun h => .opening (haccepts (by omega))⟩
    | rightParen =>
      obtain ⟨outer, rfl, hfit⟩ := exists_commas_of_rightParen hfit
      obtain ⟨hle, haccepts⟩ := hbehind outer hfit
      simp only [Token.endsOperand, capacity_true] at hle haccepts
      rw [capacity_cons, weight_cons, Token.weight]
      cases ended with
      | false =>
        -- Empty parentheses lack the operand that was to come in them.
        rw [capacity_false]
        exact ⟨by omega, fun h => by omega⟩
      | true =>
        rw [capacity_true]
        exact ⟨by omega, fun h => .closing (haccepts (by omega))⟩
    | comma =>
      obtain ⟨n, outer, rfl, hfit⟩ := exists_commas_of_comma hfit
      obtain ⟨hle, haccepts⟩ := hbehind (n :: outer) hfit
      simp only [Token.endsOperand, capacity_cons, capacity_false] at hle haccepts
      rw [capacity_cons, weight_cons, Token.weight]
      cases ended with
      | false =>
        rw [capacity_false]
        exact ⟨by omega, fun h => by omega⟩
      | true =>
        rw [capacity_true]
        exact ⟨by omega, fun h => .comma (haccepts (by omega))⟩
    | _ => simp [Token.delimiter?] at ht
  | @minus last ts hlast tail ih =>
    obtain ⟨hnext, hrest⟩ := List.isChain_cons.mp hchain
    have hallowed : last ∈ standardDisallowedLeft := by
      have hsubset : ∀ i ∈ standardAllowedLeft, i ∈ standardDisallowedLeft := by decide
      exact hsubset last hlast
    obtain rfl : ended = false := Bool.eq_false_iff.mpr fun h => hended.mp h hallowed
    obtain ⟨hle, haccepts⟩ := ih false (by decide) (fun h => Bool.noConfusion h) hrest commas hfit
    rw [weight_cons, Token.weight, Int.zero_add]
    exact ⟨hle, fun h => .minus (haccepts h)⟩
  | @binary last o ts ho hlast tail ih =>
    obtain ⟨hnext, hrest⟩ := List.isChain_cons.mp hchain
    obtain rfl : ended = true := hended.mpr hlast
    have hid : false = true ↔ o.token.id ∉ standardDisallowedLeft := by
      have hall : ∀ o ∈ standardBinaryOperators, o.token.id ∈ standardDisallowedLeft := by decide
      exact iff_of_false Bool.false_ne_true fun h => h (hall o ho)
    obtain ⟨hle, haccepts⟩ := ih false hid (fun h => Bool.noConfusion h) hrest commas hfit
    rw [capacity_false] at hle haccepts
    rw [capacity_true, weight_cons, Token.weight]
    exact ⟨by omega, fun h => .binary ho (haccepts (by omega))⟩
  | @call last s ts hs tail ih =>
    obtain rfl := eq_false_of_startsOperand hfirst rfl
    obtain ⟨-, hparen⟩ := List.isChain_cons.mp hchain
    obtain ⟨hnext, hrest⟩ := List.isChain_cons.mp hparen
    obtain ⟨hle, haccepts⟩ := ih false (by decide) (fun h => Bool.noConfusion h) hrest
      ((s.token.arity - 1) :: commas) hfit
    have harity := one_le_arity_of_mem hs
    rw [capacity_cons, capacity_false] at hle haccepts
    rw [capacity_false, weight_cons, weight_cons, Token.weight, Token.weight]
    exact ⟨by omega, fun h => .call hs (haccepts (by omega))⟩

variable [Scalar α] {names : List String} {bindings : String → Option β} {source : String}

/-- The tokens of a formula that compiles are an infix formula exactly if its operands are apart and
its commas separate the arguments of calls. -/
theorem Expression.derives_iff_of_compile {e : Expression α β}
    (h : compile (standard.withVariables names) bindings source = .ok e) :
    ∃ ts : List (Token α), (standard.withVariables names).lex source = .ok ts ∧
      (Derives ts ↔ ts.IsChain Token.Apart ∧ commasFit [] ts = true) := by
  obtain ⟨-, ts, ps, hlex, hordered, hputs⟩ := compile_eq_ok_iff.mp h
  refine ⟨ts, hlex, ?_, ?_⟩
  · intro hderives
    exact ⟨hderives.isChain, hderives.commasFit⟩
  · rintro ⟨hchain, hfit⟩
    have hlexed := (lex_eq_ok_iff.mp hlex).1.lexed
    obtain ⟨-, haccepts⟩ := hlexed.accepts false (by decide) (fun h => Bool.noConfusion h) hchain []
      hfit
    -- One tree is built, so the tokens weigh what one operand weighs.
    have hweight : weight ts = capacity false [] := by
      rw [← weight_of_toPostfix hordered, hputs.weight_eq]
      rfl
    exact (haccepts hweight).derives

/-- The call `pow(x,-1)` is an infix formula. -/
theorem Expression.derives_iff_of_compile_pow :
    let x : Node Double Unit := .variableLeaf "x" ()
    let tokens : List (Token Double) :=
      [.function PairFn.pow.function, .leftParen, .variableName "x", .comma, .unaryOperator minus,
        .constant (.unity [1]), .rightParen]
    compile (standard.withVariables ["x"]) (fun _ => some ()) "pow(x,-1)" =
        .ok ⟨"pow(x,-1)", .binary .pow x (.unary .neg (.constant (.unity [1])))⟩ ∧
      (standard.withVariables ["x"]).lex "pow(x,-1)" = .ok tokens ∧ Derives tokens := by
  intro x tokens
  have hcompile : compile (standard.withVariables ["x"]) (fun _ => some ()) "pow(x,-1)" =
      .ok ⟨"pow(x,-1)", .binary .pow x (.unary .neg (.constant (.unity [1])))⟩ := rfl
  have hlex : (standard.withVariables ["x"]).lex "pow(x,-1)" = .ok tokens := rfl
  obtain ⟨ts, hts, hderives⟩ := derives_iff_of_compile hcompile
  obtain rfl := Except.ok.inj (hlex.symm.trans hts)
  exact ⟨hcompile, hlex, hderives.mpr ⟨by decide, rfl⟩⟩

/-- Operands in front of their operator compile, with or without a comma between them, though
neither is an infix formula. -/
theorem Expression.compile_operands_first :
    let x : Node Double Unit := .variableLeaf "x" ()
    let y : Node Double Unit := .variableLeaf "y" ()
    let lexicon := standard.withVariables ["x", "y"]
    let plus : Token Double := .binaryOperator SumSign.plus.operator
    let apart : List (Token Double) := [.variableName "x", .variableName "y", plus]
    let listed : List (Token Double) :=
      [.leftParen, .variableName "x", .comma, .variableName "y", .rightParen, plus]
    compile lexicon (fun _ => some ()) "x y +" = .ok ⟨"x y +", .binary .add x y⟩ ∧
      lexicon.lex "x y +" = .ok apart ∧ ¬ Derives apart ∧
      compile lexicon (fun _ => some ()) "(x,y)+" = .ok ⟨"(x,y)+", .binary .add x y⟩ ∧
      lexicon.lex "(x,y)+" = .ok listed ∧ ¬ Derives listed := by
  intro x y lexicon plus apart listed
  have hapart : ¬ apart.IsChain Token.Apart := by decide
  have hlisted : commasFit [] listed = false := rfl
  refine ⟨rfl, rfl, fun h => hapart h.isChain, rfl, rfl, fun h => ?_⟩
  rw [h.commasFit] at hlisted
  exact Bool.noConfusion hlisted

end FormulaCalculus
