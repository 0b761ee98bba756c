import FormulaCalculus.Proofs.Grammar.Basic
import FormulaCalculus.Proofs.Postfix.Machine
import FormulaCalculus.Proofs.Tree.Building
import FormulaCalculus.Scalar.Double

/-!
Reading by precedence. Every formula of the grammar is brought into postfix order, and the tree
built from it is the tree the formula denotes. The invariant: behind a part of a formula, the
operators that wait above the old stack bind at least as tightly as the part's rank says.
-/

namespace FormulaCalculus

open Shunting

namespace Rank

/-- A bound on the precedences on the stack below a part of this rank: no operator outside
parentheses in the part has a lower threshold. -/
def entry : Rank → Int
  | primary | power => 11
  | term _ => 5
  | sum => 3

/-- What a part of this rank leaves behind. Behind a primary nothing waits. -/
def Leaves {α : Type} (ps : List (Token α)) (s s' : Shunting α) : Rank → Prop
  | primary => PutsOut ps s s'
  | power => Settles 10 ps s s'
  | term _ => Settles 5 ps s s'
  | sum => Settles 3 ps s s'

end Rank

namespace Formula

variable {α β : Type}

/-- An operator waits behind its operands, once the left one has been put out. -/
theorem settles_infix {ts us ps qs : List (Token α)} {k l m n : Int} {op : BinaryOperator}
    {s s₁ : Shunting α} (hts : s.run ts = .ok s₁) (hps : Settles l ps s s₁)
    (hus : ∀ s : Shunting α, Rests k s.stack → ∃ s', s.run us = .ok s' ∧ Settles m qs s s')
    (hs : Rests (threshold op.precedence op.leftAssociative) s.stack)
    (hl : threshold op.precedence op.leftAssociative ≤ l) (hk : op.precedence < k)
    (hm : n ≤ m) (hn : n ≤ op.precedence) :
    ∃ s', s.run (ts ++ .binaryOperator op :: us) = .ok s' ∧
      Settles n (ps ++ qs ++ [.binaryOperator op]) s s' := by
  have hpush := hps.pushOperator (.binaryOperator op) hl hs
  obtain ⟨s₂, hrun, hqs⟩ := hus ⟨s.output ++ ps, .binaryOperator op :: s.stack⟩
    (Or.inr ⟨op.precedence, rfl, hk⟩)
  refine ⟨s₂, ?_, (hqs.mono hm).operator ⟨op.precedence, rfl, hn⟩⟩
  simp only [run_append, run_cons, hts, Except.bind, step, hpush, hrun]

/-- What the tokens of a part of a formula do to the stack of operators. -/
theorem run_tokens {r : Rank} (d : Formula α β r) (s : Shunting α) (hs : Rests r.entry s.stack) :
    ∃ s', s.run d.tokens = .ok s' ∧ r.Leaves d.postfixTokens s s' := by
  -- Induction on the derivation: every part is read above a stack that its operators do not move.
  induction d generalizing s with
  | constant c => exact ⟨_, rfl, rfl⟩
  | variableLeaf name b => exact ⟨_, rfl, rfl⟩
  | parens e ih =>
    obtain ⟨s₁, hrun, hsettles⟩ := ih ⟨s.output, .leftParen :: s.stack⟩ (Or.inl rfl)
    have hclose := hsettles.closeParen hs
    refine ⟨_, ?_, rfl⟩
    simp only [tokens, List.cons_append, run_cons, run_append, run_nil, step, Except.bind, hrun,
      hclose]
    rfl
  | call f _ e ih =>
    obtain ⟨s₁, hrun, hsettles⟩ :=
      ih ⟨s.output, .leftParen :: .function f.function :: s.stack⟩ (Or.inl rfl)
    have hclose := hsettles.closeCall
    refine ⟨_, ?_, rfl⟩
    simp only [tokens, List.cons_append, run_cons, run_append, run_nil, step, Except.bind, hrun,
      hclose, postfixTokens, List.append_assoc]
  | pairCall f a e iha ihe =>
    -- The comma is passed over, so the first argument must leave nothing on the stack.
    obtain ⟨s₁, hrun₁, rfl⟩ :=
      iha ⟨s.output, .leftParen :: .function f.function :: s.stack⟩ (Or.inl rfl)
    obtain ⟨s₂, hrun₂, hsettles⟩ := ihe
      ⟨s.output ++ a.postfixTokens, .leftParen :: .function f.function :: s.stack⟩ (Or.inl rfl)
    have hclose := hsettles.closeCall
    refine ⟨_, ?_, rfl⟩
    simp only [tokens, List.cons_append, run_cons, run_append, run_nil, step, Except.bind, hrun₁,
      hrun₂, hclose, postfixTokens, List.append_assoc]
  | ofPrimary a ih =>
    obtain ⟨s₁, hrun, hout⟩ := ih s hs
    exact ⟨s₁, hrun, Settles.of_putsOut 10 hout⟩
  | raised a b iha ihb =>
    obtain ⟨s₁, hrun, hout⟩ := iha s hs
    exact settles_infix hrun (Settles.of_putsOut 11 hout) ihb hs (by decide) (by decide)
      (by decide) (by decide)
  | ofPower a ih =>
    obtain ⟨s₁, hrun, hsettles⟩ := ih s (hs.mono (by decide))
    exact ⟨s₁, hrun, hsettles.mono (by decide)⟩
  | negated a ih =>
    have hrests :
        Rests (threshold Lexicon.minus.precedence Lexicon.minus.leftAssociative) s.stack :=
      hs.mono (by decide)
    -- A power has the precedence of the minus but associates to the right, so it rests on the
    -- minus.
    have hpush := (Settles.refl 11 s).pushOperator (.unaryOperator Lexicon.minus) (by decide) hrests
    obtain ⟨s₁, hrun, hsettles⟩ := ih ⟨s.output ++ [], .unaryOperator Lexicon.minus :: s.stack⟩
      (Or.inr ⟨10, rfl, by decide⟩)
    refine ⟨s₁, ?_, (hsettles.operator ⟨10, rfl, by decide⟩).mono (by decide)⟩
    simp only [tokens, run_cons, step, hpush, Except.bind, hrun]
  | product a sign b iha ihb =>
    obtain ⟨s₁, hrun, hsettles⟩ := iha s hs
    cases sign <;> exact settles_infix hrun hsettles ihb hs (by decide) (by decide) (by decide)
      (by decide)
  | ofTerm a ih =>
    have hterm : Rests 5 s.stack := hs.mono (by decide)
    obtain ⟨s₁, hrun, hsettles⟩ := ih s hterm
    exact ⟨s₁, hrun, hsettles.mono (by decide)⟩
  | sum a sign b iha ihb =>
    obtain ⟨s₁, hrun, hsettles⟩ := iha s hs
    cases sign <;> exact settles_infix hrun hsettles ihb hs (by decide) (by decide) (by decide)
      (by decide)

theorem Rank.Leaves.finish {r : Rank} {ps : List (Token α)} {s : Shunting α}
    (h : r.Leaves ps initial s) : s.finish = .ok ps := by
  cases r with
  | primary => exact Settles.finish (Settles.of_putsOut 11 h)
  | power | term _ | sum => exact Settles.finish h

theorem toPostfix_tokens {r : Rank} (d : Formula α β r) :
    toPostfix d.tokens = .ok d.postfixTokens := by
  obtain ⟨s, hrun, hleaves⟩ := d.run_tokens initial trivial
  simp only [toPostfix, hrun]
  exact Rank.Leaves.finish hleaves

theorem puts_postfixTokens {bindings : String → Option β} {r : Rank} {d : Formula α β r}
    (hd : d.Bound bindings) : Node.Puts .standard bindings d.postfixTokens d.tree := by
  induction d with
  | constant c => exact Node.Puts.of_push fun _ => rfl
  | variableLeaf name b =>
    have hname : bindings name = some b := hd
    exact Node.Puts.of_push fun stack => by simp only [Node.push, hname, tree]
  | parens e ih => exact ih hd
  | call f _ e ih => exact (ih hd).one (fun _ => rfl) rfl (Constructors.standard_get?_unaryFn f)
  | pairCall f a e iha ihe =>
    cases f with
    | pow => exact (iha hd.1).two (ihe hd.2) (fun _ => rfl) rfl Constructors.standard_get?_powCall
    | atan2 =>
      exact (iha hd.1).two (ihe hd.2) (fun _ => rfl) rfl
        (Constructors.standard_get?_binaryFn .atan2)
  | ofPrimary a ih => exact ih hd
  | raised a b iha ihb =>
    exact (iha hd.1).two (ihb hd.2) (fun _ => rfl) rfl (Constructors.standard_get?_binaryFn .pow)
  | ofPower a ih => exact ih hd
  | negated a ih => exact (ih hd).one (fun _ => rfl) rfl (Constructors.standard_get?_unaryFn .neg)
  | product a sign b iha ihb =>
    cases sign with
    | times =>
      exact (iha hd.1).two (ihb hd.2) (fun _ => rfl) rfl (Constructors.standard_get?_binaryFn .mul)
    | divided =>
      exact (iha hd.1).two (ihb hd.2) (fun _ => rfl) rfl (Constructors.standard_get?_binaryFn .div)
  | ofTerm a ih => exact ih hd
  | sum a sign b iha ihb =>
    cases sign with
    | plus =>
      exact (iha hd.1).two (ihb hd.2) (fun _ => rfl) rfl (Constructors.standard_get?_binaryFn .add)
    | less =>
      exact (iha hd.1).two (ihb hd.2) (fun _ => rfl) rfl (Constructors.standard_get?_binaryFn .sub)

/-- Every formula is read as the tree it denotes, whatever its size and nesting. -/
theorem ofPostfix_toPostfix_tokens (bindings : String → Option β) {r : Rank} (d : Formula α β r)
    (hd : d.Bound bindings) :
    ∃ ps, toPostfix d.tokens = .ok ps ∧ Node.ofPostfix .standard bindings ps = .ok d.tree :=
  ⟨d.postfixTokens, d.toPostfix_tokens, Node.ofPostfix_eq_ok_iff.mpr (puts_postfixTokens hd)⟩

/-- The formula `-x^1*x` with its leading minus at the first power alone. -/
theorem ofPostfix_negated_power :
    let x : Formula Double Unit .primary := variableLeaf "x" ()
    let one : Formula Double Unit .primary := constant (.unity [1])
    let d := ofTerm (product (negated (raised x (ofPrimary one))) .times (ofPrimary x))
    d.Bound (fun _ => some ()) ∧
      ∃ ps, toPostfix d.tokens = .ok ps ∧
        Node.ofPostfix .standard (fun _ => some ()) ps =
          .ok (.binary .mul (.unary .neg (.binary .pow (.variableLeaf "x" ())
            (.constant (.unity [1])))) (.variableLeaf "x" ())) := by
  refine ⟨⟨⟨rfl, trivial⟩, rfl⟩, ?_⟩
  exact ofPostfix_toPostfix_tokens (fun _ => some ()) _ ⟨⟨rfl, trivial⟩, rfl⟩

end Formula

end FormulaCalculus
