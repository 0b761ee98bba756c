import FormulaCalculus.Proofs.Postfix.Steps
import FormulaCalculus.Proofs.Token.NextToken

/-!
The operators of a formula outside its parentheses. Those that are still on the stack at its end
have the least precedences among them. An operator in front of every operand is the only one that
can move what waits below the formula before the formula's own operands are put out.
-/

namespace FormulaCalculus

/-- The operators outside parentheses, with `depth` parentheses open in front of the tokens. -/
def outerOperators {α : Type} (depth : Nat) : List (Token α) → List (Token α)
  | [] => []
  | .leftParen :: ts => outerOperators (depth + 1) ts
  | .rightParen :: ts => outerOperators (depth - 1) ts
  | t :: ts =>
    if t.isOperator = true ∧ depth = 0 then t :: outerOperators depth ts
    else outerOperators depth ts

/-- The first operator outside parentheses, if it stands in front of every operand. -/
def leadingOperator? {α : Type} (depth : Nat) : List (Token α) → Option (Token α)
  | [] => none
  | .leftParen :: ts => leadingOperator? (depth + 1) ts
  | .rightParen :: ts => leadingOperator? (depth - 1) ts
  | t :: ts =>
    if t.isOperand = true then none
    else if t.isOperator = true ∧ depth = 0 then some t
    else leadingOperator? depth ts

namespace Shunting

variable {α : Type}

/-- The number of open parentheses on a stack. -/
def openParens : List (Token α) → Nat
  | [] => 0
  | .leftParen :: k => openParens k + 1
  | _ :: k => openParens k

/-- The operators on a stack that stand below every open parenthesis. -/
def outerStack : List (Token α) → List (Token α)
  | [] => []
  | t :: k => if t.isOperator = true ∧ openParens k = 0 then t :: outerStack k else outerStack k

theorem openParens_cons_of_ne {t : Token α} (ht : t ≠ .leftParen) (k : List (Token α)) :
    openParens (t :: k) = openParens k := by
  cases t <;> first | exact absurd rfl ht | rfl

theorem openParens_leftParen_ne_zero {k : List (Token α)} : openParens (.leftParen :: k) ≠ 0 :=
  Nat.succ_ne_zero _

theorem openParens_append_of_ne {a : List (Token α)} (ha : ∀ t ∈ a, t ≠ .leftParen)
    (b : List (Token α)) : openParens (a ++ b) = openParens b := by
  induction a with
  | nil => rfl
  | cons t a ih =>
    obtain ⟨ht, ha⟩ := List.forall_mem_cons.mp ha
    rw [List.cons_append, openParens_cons_of_ne ht, ih ha]

theorem outerStack_append_of_open {b : List (Token α)} (hb : openParens b ≠ 0)
    (a : List (Token α)) : outerStack (a ++ b) = outerStack b := by
  induction a with
  | nil => rfl
  | cons t a ih =>
    have hopen : openParens (a ++ b) ≠ 0 := by
      clear ih
      induction a with
      | nil => exact hb
      | cons u a ih =>
        rw [List.cons_append]
        cases u <;> first | exact ih | exact Nat.succ_ne_zero _
    rw [List.cons_append, outerStack, if_neg fun h => hopen h.2, ih]

/-- With no parenthesis open, all operators are outside. -/
theorem outerStack_append_of_closed {a b : List (Token α)} (ha : ∀ t ∈ a, t.isOperator = true)
    (hb : openParens b = 0) : outerStack (a ++ b) = a ++ outerStack b := by
  induction a with
  | nil => rfl
  | cons t a ih =>
    obtain ⟨ht, ha⟩ := List.forall_mem_cons.mp ha
    have hclosed : openParens (a ++ b) = 0 :=
      (openParens_append_of_ne (ne_leftParen_of_operators ha) b).trans hb
    rw [List.cons_append, outerStack, if_pos ⟨ht, hclosed⟩, ih ha, List.cons_append]

theorem outerStack_of_operators {k : List (Token α)} (hk : ∀ t ∈ k, t.isOperator = true) :
    outerStack k = k := by
  have h := outerStack_append_of_closed (b := []) hk rfl
  simpa [outerStack] using h

/-- The tokens behind the first one stand as deep as it leaves them. -/
theorem outerOperators_cons {d d' : Nat} {t : Token α}
    (ht : parenDepth d t.delimiter?.toList = some d') (ts : List (Token α)) :
    outerOperators d (t :: ts) = outerOperators d [t] ++ outerOperators d' ts := by
  cases t with
  | leftParen =>
    obtain rfl := Option.some.inj ht
    rfl
  | rightParen =>
    obtain ⟨-, rfl⟩ : d ≠ 0 ∧ d - 1 = d' := by simpa [Token.delimiter?, parenDepth] using ht
    rfl
  | _ =>
    obtain rfl := Option.some.inj ht
    simp only [outerOperators]
    split <;> rfl

/-- A step opens and closes as many parentheses as its token does. -/
theorem Steps.parenDepth_eq {s s' : Shunting α} {t : Token α} (h : Steps s t s') :
    parenDepth (openParens s.stack) t.delimiter?.toList = some (openParens s'.stack) := by
  have hplain {t : Token α} (ht : t.isOperand = true ∨ t.isOperator = true) :
      t.delimiter?.toList = [] ∧ t ≠ .leftParen := by
    rcases ht with ht | ht <;> cases t <;>
      simp_all [Token.isOperand, Token.isOperator, Token.delimiter?]
  cases h with
  | operand ht =>
    rw [(hplain (Or.inl ht)).1]
    rfl
  | opening | name | comma => rfl
  | operator ht ha hb =>
    obtain ⟨hnil, hne⟩ := hplain (Or.inr (Token.isOperator_of_threshold? ht))
    rw [hnil, openParens_cons_of_ne hne,
      openParens_append_of_ne fun u hu => (hplain (Or.inr (ha u hu).isOperator)).2]
    rfl
  | closing ha _ =>
    dsimp only
    rw [openParens_append_of_ne ha]
    rfl
  | closingCall ha =>
    dsimp only
    rw [openParens_append_of_ne ha]
    rfl

/-- A step adds an outer operator to those on the stack, and moves only operators that bind at
least as tightly as it does. -/
theorem Steps.reaches_iff {s s' : Shunting α} {t : Token α} (h : Steps s t s') (n : Int) :
    (∀ u ∈ outerStack s'.stack, Reaches n u) ↔
      (∀ u ∈ outerStack s.stack, Reaches n u) ∧
        ∀ u ∈ outerOperators (openParens s.stack) [t], Reaches n u := by
  cases h with
  | @operand o k t ht =>
    have hop : outerOperators (openParens k) [t] = [] := by
      cases t <;> simp_all [Token.isOperand, outerOperators, Token.isOperator]
    simp [hop]
  | opening | name | comma => simp [outerStack, outerOperators, Token.isOperator]
  | @operator o a b t m ht ha hb =>
    have hisOperator := Token.isOperator_of_threshold? ht
    have hops : ∀ u ∈ a, u.isOperator = true := fun u hu => (ha u hu).isOperator
    have htoken : outerOperators (openParens b) [t] = if openParens b = 0 then [t] else [] := by
      cases t <;> simp_all [outerOperators, Token.isOperator]
    dsimp only
    rw [openParens_append_of_ne (ne_leftParen_of_operators hops), htoken]
    -- What the operator moves is outer exactly if no parenthesis is open below it.
    by_cases hclosed : openParens b = 0
    · rw [outerStack_append_of_closed hops hclosed, outerStack, if_pos ⟨hisOperator, hclosed⟩,
        if_pos hclosed, List.forall_mem_cons, List.forall_mem_append, List.forall_mem_singleton]
      constructor
      · rintro ⟨ht', hb'⟩
        exact ⟨⟨fun u hu => (ha u hu).mono (Token.le_threshold? ht ht'), hb'⟩, ht'⟩
      · rintro ⟨⟨-, hb'⟩, ht'⟩
        exact ⟨ht', hb'⟩
    · rw [outerStack_append_of_open hclosed, outerStack, if_neg fun h => hclosed h.2,
        if_neg hclosed]
      simp
  | @closing o a b ha hb =>
    dsimp only
    rw [outerStack_append_of_open openParens_leftParen_ne_zero]
    simp [outerStack, outerOperators, Token.isOperator]
  | @closingCall o a b f ha =>
    dsimp only
    rw [outerStack_append_of_open openParens_leftParen_ne_zero]
    simp [outerStack, outerOperators, Token.isOperator]

/-- A formula leaves as many parentheses open on the stack as in the text. -/
theorem run_parenDepth {s s' : Shunting α} {ts : List (Token α)} (h : s.run ts = .ok s') :
    parenDepth (openParens s.stack) (ts.filterMap Token.delimiter?) =
      some (openParens s'.stack) := by
  induction ts generalizing s with
  | nil =>
    rw [Except.ok.inj h]
    rfl
  | cons t ts ih =>
    obtain ⟨s₁, hstep, hrun⟩ := run_cons_eq_ok_iff.mp h
    rw [Token.filterMap_delimiter?_cons, parenDepth_append, hstep.parenDepth_eq, Option.bind_some,
      ih hrun]

/-- The outer operators left on the stack reach a precedence if and only if all outer operators
do. -/
theorem run_reaches_iff {s s' : Shunting α} {ts : List (Token α)} (h : s.run ts = .ok s')
    (n : Int) :
    (∀ u ∈ outerStack s'.stack, Reaches n u) ↔
      (∀ u ∈ outerStack s.stack, Reaches n u) ∧
        ∀ u ∈ outerOperators (openParens s.stack) ts, Reaches n u := by
  induction ts generalizing s with
  | nil =>
    rw [Except.ok.inj h]
    simp [outerOperators]
  | cons t ts ih =>
    obtain ⟨s₁, hstep, hrun⟩ := run_cons_eq_ok_iff.mp h
    rw [ih hrun, hstep.reaches_iff, outerOperators_cons hstep.parenDepth_eq ts,
      List.forall_mem_append, and_assoc]

end Shunting

end FormulaCalculus
