import FormulaCalculus.Proofs.Postfix.Waiting
import FormulaCalculus.Proofs.Token.Adjacency
import FormulaCalculus.Scalar.Double

/-!
Which formulas can be reordered. A function on the stack lies directly beneath a parenthesis as long
as its name is followed by one, so operators and closing parentheses only ever meet operators and
opening parentheses. All that can go wrong is then that a parenthesis has no partner.
-/

namespace FormulaCalculus

variable {α : Type}

namespace Token

def isLeftParen : Token α → Bool
  | leftParen => true
  | _ => false

def isRightParen : Token α → Bool
  | rightParen => true
  | _ => false

end Token

/-- Whether the parentheses of a list of tokens are balanced: no part in front of it closes more
than it opens, and as many are closed as opened. -/
structure Balanced (ts : List (Token α)) : Prop where
  prefixes : ∀ us, us <+: ts → us.countP Token.isRightParen ≤ us.countP Token.isLeftParen
  total : ts.countP Token.isLeftParen = ts.countP Token.isRightParen

theorem forall_prefix_cons_iff {t : Token α} {ts : List (Token α)} {P : List (Token α) → Prop} :
    (∀ us, us <+: t :: ts → P us) ↔ P [] ∧ ∀ us, us <+: ts → P (t :: us) := by
  constructor
  · intro h
    exact ⟨h [] List.nil_prefix, fun us hus => h (t :: us) (List.cons_prefix_cons.mpr ⟨rfl, hus⟩)⟩
  · rintro ⟨hnil, hcons⟩ us hus
    rcases List.prefix_cons_iff.mp hus with rfl | ⟨vs, rfl, hvs⟩
    · exact hnil
    · exact hcons vs hvs

/-- The number of open parentheses, by counting them. -/
theorem parenDepth_eq_some_iff {ts : List (Token α)} {d d' : Nat} :
    parenDepth d (ts.filterMap Token.delimiter?) = some d' ↔
      (∀ us, us <+: ts → us.countP Token.isRightParen ≤ d + us.countP Token.isLeftParen) ∧
        d + ts.countP Token.isLeftParen = d' + ts.countP Token.isRightParen := by
  induction ts generalizing d with
  | nil => simp [parenDepth]
  | cons t ts ih =>
    rw [forall_prefix_cons_iff]
    simp only [List.countP_nil, List.countP_cons]
    cases t with
    | leftParen =>
      have hnext : parenDepth d ((Token.leftParen :: ts).filterMap Token.delimiter?) =
          parenDepth (d + 1) (ts.filterMap Token.delimiter?) := rfl
      have hcount (m n : Nat) : m ≤ d + 1 + n ↔ m + 0 ≤ d + (n + 1) := by omega
      rw [hnext, ih]
      simp only [Token.isLeftParen, Token.isRightParen, if_true, Bool.false_eq_true, if_false,
        hcount, Nat.zero_le, true_and]
      apply and_congr_right'
      omega
    | rightParen =>
      cases d with
      | zero =>
        -- The parenthesis by itself closes more than is open.
        have hnone : parenDepth 0 ((Token.rightParen :: ts).filterMap Token.delimiter?) = none :=
          rfl
        rw [hnone]
        apply iff_of_false (Option.some_ne_none d').symm
        rintro ⟨⟨-, h⟩, -⟩
        have halone := h [] List.nil_prefix
        simp [Token.isLeftParen, Token.isRightParen] at halone
      | succ d =>
        have hnext : parenDepth (d + 1) ((Token.rightParen :: ts).filterMap Token.delimiter?) =
            parenDepth d (ts.filterMap Token.delimiter?) := rfl
        have hcount (m n : Nat) : m ≤ d + n ↔ m + 1 ≤ d + 1 + (n + 0) := by omega
        rw [hnext, ih]
        simp only [Token.isLeftParen, Token.isRightParen, if_true, Bool.false_eq_true, if_false,
          hcount, Nat.zero_le, true_and]
        apply and_congr_right'
        omega
    | _ =>
      simp only [Token.isLeftParen, Token.isRightParen, Bool.false_eq_true, if_false,
        Nat.add_zero, Nat.zero_le, true_and]
      exact ih

theorem balanced_iff {ts : List (Token α)} :
    Balanced ts ↔ parenDepth 0 (ts.filterMap Token.delimiter?) = some 0 := by
  rw [parenDepth_eq_some_iff]
  simp only [Nat.zero_add]
  exact ⟨fun h => ⟨h.prefixes, h.total⟩, fun h => ⟨h.1, h.2⟩⟩

instance {ts : List (Token α)} : Decidable (Balanced ts) := decidable_of_iff _ balanced_iff.symm

namespace Shunting

/-- The stacks on which every function lies directly beneath a parenthesis. -/
inductive Guarded : List (Token α) → Prop
  | nil : Guarded []
  | operator {t : Token α} {k : List (Token α)} (ht : t.isOperator = true) (hk : Guarded k) :
      Guarded (t :: k)
  | paren {k : List (Token α)} (hk : Guarded k) : Guarded (.leftParen :: k)
  | call {f : Function} {k : List (Token α)} (hk : Guarded k) :
      Guarded (.leftParen :: .function f :: k)

theorem Guarded.noCall {k : List (Token α)} (hk : Guarded k) : NoCall k := by
  rintro f rest rfl
  cases hk with
  | operator ht hk => exact Bool.noConfusion ht

/-- Down to its topmost parenthesis a guarded stack holds operators only. -/
theorem Guarded.exists_operators {k : List (Token α)} (hk : Guarded k) :
    ∃ a b, k = a ++ b ∧ (∀ u ∈ a, u.isOperator = true) ∧ Guarded b ∧
      (b = [] ∨ ∃ r, b = .leftParen :: r) := by
  induction hk with
  | nil => exact ⟨[], [], rfl, by simp, .nil, Or.inl rfl⟩
  | operator ht hk ih =>
    obtain ⟨a, b, rfl, ha, hb, hends⟩ := ih
    exact ⟨_ :: a, b, rfl, List.forall_mem_cons.mpr ⟨ht, ha⟩, hb, hends⟩
  | paren hk ih => exact ⟨[], _, rfl, by simp, .paren hk, Or.inr ⟨_, rfl⟩⟩
  | call hk ih => exact ⟨[], _, rfl, by simp, .call hk, Or.inr ⟨_, rfl⟩⟩

theorem Guarded.append {a b : List (Token α)} (ha : ∀ u ∈ a, u.isOperator = true)
    (hb : Guarded b) : Guarded (a ++ b) := by
  induction a with
  | nil => exact hb
  | cons u a ih =>
    obtain ⟨hu, ha⟩ := List.forall_mem_cons.mp ha
    exact .operator hu (ih ha)

/-- An operator finds its place on a guarded stack, and leaves it guarded. -/
theorem Guarded.exists_operator_step {o k : List (Token α)} {t : Token α} (hk : Guarded k)
    (ht : t.isOperator = true) : ∃ s, Steps ⟨o, k⟩ t s ∧ Guarded s.stack := by
  obtain ⟨n, hn⟩ := Token.exists_threshold? ht
  obtain ⟨ops, b, rfl, hops, hb, hends⟩ := hk.exists_operators
  obtain ⟨moved, kept, rfl, hmoved, hkept⟩ := exists_rests n hops
  have hrests : Rests n (kept ++ b) := by
    apply hkept.append
    intro _
    rcases hends with rfl | ⟨r, rfl⟩
    · trivial
    · exact Or.inl rfl
  have hguarded : Guarded (kept ++ b) := .append (List.forall_mem_append.mp hops).2 hb
  refine ⟨⟨o ++ moved, t :: (kept ++ b)⟩, ?_, .operator ht hguarded⟩
  rw [List.append_assoc]
  exact .operator hn hmoved hrests

theorem splitParen_of_operators {k : List (Token α)} (hk : ∀ u ∈ k, u.isOperator = true) :
    splitParen k = .error .mismatchedParentheses := by
  induction k with
  | nil => rfl
  | cons u k ih =>
    obtain ⟨hu, hrest⟩ := List.forall_mem_cons.mp hk
    cases u with
    | unaryOperator _ | binaryOperator _ =>
      simp only [splitParen, ih hrest]
      rfl
    | _ => exact Bool.noConfusion hu

/-- A closing parenthesis finds the topmost opening one of a guarded stack, if there is any. -/
theorem Guarded.closing_step {o k : List (Token α)} (hk : Guarded k) :
    (∃ s, Steps ⟨o, k⟩ .rightParen s ∧ Guarded s.stack) ∨
      step ⟨o, k⟩ .rightParen = .error .mismatchedParentheses ∧ openParens k = 0 := by
  obtain ⟨a, b, rfl, ha, hb, hends⟩ := hk.exists_operators
  have hne := ne_leftParen_of_operators ha
  rw [openParens_append_of_ne hne]
  rcases hends with rfl | ⟨r, rfl⟩
  · right
    refine ⟨?_, rfl⟩
    rw [List.append_nil, step, closeParen, splitParen_of_operators ha]
    rfl
  · left
    cases hb with
    | operator ht => exact Bool.noConfusion ht
    | paren hr => exact ⟨_, .closing hne hr.noCall, hr⟩
    | call hr => exact ⟨_, .closingCall hne, hr⟩

/-- A token that is no function leaves a guarded stack guarded; the step fails only at a closing
parenthesis, where none is open. -/
theorem Guarded.step {s : Shunting α} {t : Token α} (hs : Guarded s.stack) (hstart : t ≠ .start)
    (hname : ∀ f, t ≠ .function f) :
    (∃ s', Steps s t s' ∧ Guarded s'.stack) ∨ s.step t = .error .mismatchedParentheses ∧
      parenDepth (openParens s.stack) t.delimiter?.toList = none := by
  obtain ⟨o, k⟩ := s
  cases t with
  | start => exact absurd rfl hstart
  | function f => exact absurd rfl (hname f)
  | constant _ | variableName _ => exact Or.inl ⟨_, .operand rfl, hs⟩
  | leftParen => exact Or.inl ⟨_, .opening, .paren hs⟩
  | comma => exact Or.inl ⟨_, .comma, hs⟩
  | unaryOperator _ | binaryOperator _ => exact Or.inl (hs.exists_operator_step rfl)
  | rightParen =>
    apply hs.closing_step.imp_right
    rintro ⟨hfails, hclosed⟩
    refine ⟨hfails, ?_⟩
    rw [hclosed]
    rfl

theorem Guarded.finish {s : Shunting α} (hs : Guarded s.stack) :
    (∃ ps, s.finish = .ok ps) ∧ openParens s.stack = 0 ∨
      s.finish = .error .mismatchedParentheses ∧ openParens s.stack ≠ 0 := by
  obtain ⟨o, k⟩ := s
  obtain ⟨a, b, rfl, ha, hb, hends⟩ := hs.exists_operators
  have hne := ne_leftParen_of_operators ha
  dsimp only
  rw [openParens_append_of_ne hne]
  rcases hends with rfl | ⟨r, rfl⟩
  · left
    rw [List.append_nil]
    exact ⟨⟨_, finish_eq_ok_iff.mpr ⟨ha, rfl⟩⟩, rfl⟩
  · right
    have hdrop : (a ++ Token.leftParen :: r).dropWhile Token.isOperator = .leftParen :: r :=
      List.dropWhile_append_of_pos ha
    refine ⟨?_, openParens_leftParen_ne_zero⟩
    rw [Shunting.finish, hdrop]

/-- Whether tokens run to a guarded stack, or fail at a closing parenthesis without partner. -/
def RunsGuarded (s : Shunting α) (ts : List (Token α)) : Prop :=
  (∃ s', s.run ts = .ok s' ∧ Guarded s'.stack) ∨ s.run ts = .error .mismatchedParentheses ∧
    parenDepth (openParens s.stack) (ts.filterMap Token.delimiter?) = none

theorem RunsGuarded.cons {s s₁ : Shunting α} {t : Token α} {ts : List (Token α)}
    (hstep : Steps s t s₁) (h : RunsGuarded s₁ ts) : RunsGuarded s (t :: ts) := by
  rcases h with ⟨s', hrun, hs'⟩ | ⟨hfails, hnone⟩
  · exact Or.inl ⟨s', run_cons_eq_ok_iff.mpr ⟨s₁, hstep, hrun⟩, hs'⟩
  · right
    constructor
    · rw [run_cons, step_eq_ok_iff.mpr hstep]
      exact hfails
    · rw [Token.filterMap_delimiter?_cons, parenDepth_append, hstep.parenDepth_eq]
      exact hnone

/-- Over a guarded stack the calls of a list of tokens keep their functions guarded. -/
theorem Guarded.runs {s : Shunting α} {ts : List (Token α)} (hs : Guarded s.stack)
    (h : CallsOpen ts) : RunsGuarded s ts := by
  induction h generalizing s with
  | nil => exact Or.inl ⟨s, rfl, hs⟩
  | @token t ts hstart hname tail ih =>
    rcases hs.step hstart hname with ⟨s₁, hstep, hs₁⟩ | ⟨hfails, hnone⟩
    · exact .cons hstep (ih hs₁)
    · right
      constructor
      · rw [run_cons, hfails]
        rfl
      · rw [Token.filterMap_delimiter?_cons, parenDepth_append, hnone]
        rfl
  | @call f ts tail ih =>
    -- The function is bare between the two steps only.
    apply RunsGuarded.cons .name
    apply RunsGuarded.cons .opening
    apply ih
    exact .call hs

end Shunting

/-- Tokens in which every call is open are reordered exactly if they are balanced. -/
theorem CallsOpen.toPostfix_ends {ts : List (Token α)} (h : CallsOpen ts) :
    (∃ ps, toPostfix ts = .ok ps) ∧ Balanced ts ∨
      toPostfix ts = .error .mismatchedParentheses ∧ ¬ Balanced ts := by
  have hstart : Shunting.Guarded (Shunting.initial : Shunting α).stack := .nil
  rw [balanced_iff]
  rcases hstart.runs h with ⟨s, hrun, hs⟩ | ⟨hfails, hnone⟩
  · have hdepth := Shunting.run_parenDepth hrun
    have hends : toPostfix ts = s.finish := by
      rw [toPostfix, hrun]
      rfl
    change parenDepth 0 _ = _ at hdepth
    rw [hends, hdepth, Option.some.injEq]
    exact hs.finish
  · right
    change parenDepth 0 _ = _ at hnone
    rw [hnone, toPostfix, hfails]
    exact ⟨rfl, fun h => nomatch h⟩

namespace Lexicon

variable [Scalar α] {l : Lexicon} {source : String} {ts : List (Token α)}

/-- Under every lexicon, the tokens of a text are reordered exactly if their parentheses are
balanced, and no other error is ever met. -/
theorem toPostfix_iff_balanced (h : l.lex source = .ok ts) :
    ((∃ ps, toPostfix ts = .ok ps) ↔ Balanced ts) ∧
      (¬ Balanced ts → toPostfix ts = .error .mismatchedParentheses) := by
  have hcalls := (lex_eq_ok_iff.mp h).1.callsOpen
  rcases hcalls.toPostfix_ends with ⟨hok, hbalanced⟩ | ⟨hfails, hnot⟩
  · exact ⟨iff_of_true hok hbalanced, fun hnot => absurd hbalanced hnot⟩
  · refine ⟨iff_of_false ?_ hnot, fun _ => hfails⟩
    rintro ⟨ps, hps⟩
    rw [hfails] at hps
    nomatch hps

/-- A call of a function that is not a standard one, and the same call closed once too often. -/
theorem toPostfix_iff_balanced_call :
    let l := (Lexicon.empty.withVariable "x").withFunction "f" ⟨60, 2⟩
    let call : List (Token Double) :=
      [.function ⟨60, 2⟩, .leftParen, .variableName "x", .comma, .variableName "x", .rightParen]
    l.lex "f(x,x)" = .ok call ∧ (∃ ps, toPostfix call = .ok ps) ∧
      l.lex "f(x,x))" = .ok (call ++ [.rightParen]) ∧
        toPostfix (call ++ [.rightParen]) = .error .mismatchedParentheses := by
  intro l call
  have hcall : l.lex "f(x,x)" = .ok call := rfl
  have hclosed : l.lex "f(x,x))" = .ok (call ++ [.rightParen]) := rfl
  have hbalanced : Balanced call := by decide
  have hnot : ¬ Balanced (call ++ [.rightParen]) := by decide
  exact ⟨hcall, (toPostfix_iff_balanced hcall).1.mpr hbalanced, hclosed,
    (toPostfix_iff_balanced hclosed).2 hnot⟩

end Lexicon

end FormulaCalculus
