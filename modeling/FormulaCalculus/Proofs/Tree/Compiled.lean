import FormulaCalculus.Proofs.Call.Arguments
import FormulaCalculus.Proofs.Postfix.Output
import FormulaCalculus.Proofs.Token.Reading
import FormulaCalculus.Proofs.Tree.WellFormed

/-!
What holds of compiled formulas. Compilation takes constants and variables from the tokens of the
formula, and makes nodes of trees that it has made before. So a property that the leaves have and
nodes take over from their parts holds of every compiled tree; that all constants are well-formed is
one.
-/

namespace FormulaCalculus

/-- Whether a token is no constant, or one that a literal stands for. -/
def Token.OfLiteral {α : Type} [Scalar α] : Token α → Prop
  | constant c => ∃ cs n, Literal.ofPrefix? cs = some n ∧ n.constant? = some c
  | _ => True

namespace Lexicon

variable {α : Type} [Scalar α] {l : Lexicon} {last : TokenId} {cs text input : List Char}
  {t : Token α} {ts : List (Token α)}

theorem Takes.ofLiteral (h : l.Takes last cs t text) : t.OfLiteral := by
  cases h with
  | delimiter ht hcs => cases t <;> trivial
  | constant hn hc => exact ⟨cs, _, hn, hc⟩
  | _ => trivial

theorem Reads.ofLiteral (h : Reads l last input ts) : ∀ t ∈ ts, t.OfLiteral :=
  h.forall_mem fun _ _ _ _ => Takes.ofLiteral

end Lexicon

namespace Node

variable {α β : Type} {bindings : String → Option β} {stack stack' : List (Node α β)} {t : Token α}

/-- Whether a property of trees holds of the leaves that tokens with a property are compiled to, and
of a node if it holds of its parts. -/
structure Constructive (bindings : String → Option β) (T : Token α → Prop) (P : Node α β → Prop) :
    Prop where
  constant : ∀ c, T (.constant c) → P (constant c)
  variableLeaf : ∀ name b, T (.variableName name) → bindings name = some b → P (variableLeaf name b)
  unary : ∀ f a, P a → P (unary f a)
  binary : ∀ f a b, P a → P b → P (binary f a b)

namespace Constructive

variable {T : Token α → Prop} {P : Node α β → Prop}

theorem reduce (hP : Constructive bindings T P) (h : reduce .standard t stack = .ok stack')
    (hstack : ∀ a ∈ stack, P a) : ∀ a ∈ stack', P a := by
  rcases reduce_standard h with ⟨f, a, rest, -, -, rfl, rfl⟩ | ⟨f, a, b, rest, -, -, rfl, rfl⟩
  · obtain ⟨ha, hrest⟩ := List.forall_mem_cons.mp hstack
    exact List.forall_mem_cons.mpr ⟨hP.unary f a ha, hrest⟩
  · obtain ⟨hb, hstack⟩ := List.forall_mem_cons.mp hstack
    obtain ⟨ha, hrest⟩ := List.forall_mem_cons.mp hstack
    exact List.forall_mem_cons.mpr ⟨hP.binary f a b ha hb, hrest⟩

theorem push (hP : Constructive bindings T P) (h : push .standard bindings stack t = .ok stack')
    (ht : T t) (hstack : ∀ a ∈ stack, P a) : ∀ a ∈ stack', P a := by
  cases t with
  | constant c =>
    obtain rfl := Except.ok.inj h
    exact List.forall_mem_cons.mpr ⟨hP.constant c ht, hstack⟩
  | variableName name =>
    simp only [Node.push] at h
    split at h
    · rename_i b hb
      obtain rfl := Except.ok.inj h
      exact List.forall_mem_cons.mpr ⟨hP.variableLeaf name b ht hb, hstack⟩
    · cases h
  | unaryOperator _ | binaryOperator _ | function _ => exact hP.reduce h hstack
  | _ => cases h

theorem foldlM_push (hP : Constructive bindings T P) {ts : List (Token α)}
    (h : ts.foldlM (Node.push .standard bindings) stack = .ok stack') (hts : ∀ t ∈ ts, T t)
    (hstack : ∀ a ∈ stack, P a) : ∀ a ∈ stack', P a := by
  induction ts generalizing stack with
  | nil =>
    obtain rfl := Except.ok.inj h
    exact hstack
  | cons t ts ih =>
    obtain ⟨ht, hts⟩ := List.forall_mem_cons.mp hts
    rw [List.foldlM_cons] at h
    obtain ⟨stack₁, hpush, h⟩ := exists_of_bind_eq_ok h
    exact ih h hts (hP.push hpush ht hstack)

theorem compile [Scalar α] (hP : Constructive bindings T P) {l : Lexicon} {source : String}
    {e : Expression α β} (hT : ∀ tokens, l.lex source = .ok tokens → ∀ t ∈ tokens, T t)
    (h : Expression.compile l bindings source = .ok e) : P e.root := by
  obtain ⟨-, ts, ps, hlex, hordered, hputs⟩ := Expression.compile_eq_ok_iff.mp h
  have hpostfix := Shunting.toPostfix_made_of hordered (hT ts hlex)
  have hroot := hP.foldlM_push (hputs []) hpostfix (by simp)
  exact hroot e.root List.mem_cons_self

end Constructive

theorem constructive_wellFormed {bindings : String → Option β} :
    Constructive bindings Token.OfLiteral (WellFormed (α := Double)) where
  constant _ := fun ⟨_, _, hn, hc⟩ => Literal.constant?_wellFormed hn hc
  variableLeaf _ _ _ _ := trivial
  unary _ _ h := h
  binary _ _ _ ha hb := ⟨ha, hb⟩

end Node

/-- The tree of a compiled formula has well-formed constants. -/
theorem Expression.compile_wellFormed {β : Type} {l : Lexicon} {bindings : String → Option β}
    {source : String} {e : Expression Double β} (h : compile l bindings source = .ok e) :
    e.root.WellFormed :=
  Node.constructive_wellFormed.compile (fun _ hlex => (Lexicon.lex_eq_ok_iff.mp hlex).1.ofLiteral) h

end FormulaCalculus
