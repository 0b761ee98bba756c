import Mathlib.Data.List.Forall2
import FormulaCalculus.Proofs.Tree.Building

/-!
Trees and their postorder, in which each node stands behind its children. Building a tree from
tokens for its nodes in postorder gives the tree back, and tokens that are no tree in postorder are
refused.
-/

namespace FormulaCalculus

variable {α β : Type}

/-- A node of a tree without its children. -/
inductive NodeLabel (α β : Type) where
  | constant (c : Constant α)
  | tensor (a : Tensor α)
  | variableLeaf (name : String) (binding : β)
  | unary (f : UnaryFn)
  | binary (f : BinaryFn)

/-- Whether a token is how a node is written: a leaf as its constant or its name, which is bound as
told, and an inner node as an operator or function of its id and arity. -/
inductive Token.Writes (bindings : String → Option β) : Token α → NodeLabel α β → Prop
  | constant (c : Constant α) : Writes bindings (.constant c) (.constant c)
  | variableName {name : String} {b : β} (hb : bindings name = some b) :
      Writes bindings (.variableName name) (.variableLeaf name b)
  | unary {t : Token α} {f : UnaryFn} (harity : t.arity = 1) (hid : t.id = f.id) :
      Writes bindings t (.unary f)
  | binary {t : Token α} {f : BinaryFn} (harity : t.arity = 2) (hid : f.HasId t.id) :
      Writes bindings t (.binary f)

namespace Node

variable {bindings : String → Option β} {t : Token α} {ts : List (Token α)} {a : Node α β}
  {stack stack' : List (Node α β)}

/-- The nodes of a tree, each behind its children. -/
def postorder : Node α β → List (NodeLabel α β)
  | constant c => [.constant c]
  | tensor a => [.tensor a]
  | variableLeaf name b => [.variableLeaf name b]
  | unary f a => a.postorder ++ [.unary f]
  | binary f a b => a.postorder ++ b.postorder ++ [.binary f]

/-- Whether tokens are the nodes of a tree in postorder, token by token. -/
def IsPostorder (bindings : String → Option β) (ts : List (Token α)) (a : Node α β) : Prop :=
  List.Forall₂ (Token.Writes bindings) ts a.postorder

/-- Whether all leaves are constants and variables that are bound as told. -/
def Bound (bindings : String → Option β) : Node α β → Prop
  | constant _ => True
  | tensor _ => False
  | variableLeaf name b => bindings name = some b
  | unary _ a => a.Bound bindings
  | binary _ a b => a.Bound bindings ∧ b.Bound bindings

/-! ### From the tree to its tokens and back -/

theorem push_of_arity (h : t.arity ≠ 0) (stack : List (Node α β)) :
    push .standard bindings stack t = reduce .standard t stack := by
  cases t <;> first | rfl | exact absurd rfl h

theorem exists_append_of_forall₂ {ls ms : List (NodeLabel α β)}
    (h : List.Forall₂ (Token.Writes bindings) ts (ls ++ ms)) :
    ∃ us vs, ts = us ++ vs ∧ List.Forall₂ (Token.Writes bindings) us ls ∧
      List.Forall₂ (Token.Writes bindings) vs ms :=
  ⟨_, _, (List.take_append_drop ls.length ts).symm, List.forall₂_take_append ts ls ms h,
    List.forall₂_drop_append ts ls ms h⟩

theorem exists_singleton_of_forall₂ {l : NodeLabel α β}
    (h : List.Forall₂ (Token.Writes bindings) ts [l]) : ∃ t, ts = [t] ∧ t.Writes bindings l := by
  obtain ⟨t, us, ht, hus, rfl⟩ := List.forall₂_cons_right_iff.mp h
  obtain rfl := List.forall₂_nil_right_iff.mp hus
  exact ⟨t, rfl, ht⟩

/-- The postorder of a tree puts the tree on any stack. -/
theorem IsPostorder.puts (h : IsPostorder bindings ts a) : Puts .standard bindings ts a := by
  induction a generalizing ts with
  | constant c =>
    obtain ⟨t, rfl, ht⟩ := exists_singleton_of_forall₂ h
    cases ht
    exact .of_push fun _ => rfl
  | tensor a =>
    obtain ⟨t, rfl, ht⟩ := exists_singleton_of_forall₂ h
    nomatch ht
  | variableLeaf name b =>
    obtain ⟨t, rfl, ht⟩ := exists_singleton_of_forall₂ h
    cases ht with
    | variableName hb =>
      apply Puts.of_push
      intro stack
      simp only [push, hb]
  | unary f a ih =>
    obtain ⟨us, vs, rfl, hchild, hlast⟩ := exists_append_of_forall₂ h
    obtain ⟨t, rfl, ht⟩ := exists_singleton_of_forall₂ hlast
    cases ht with
    | unary harity hid =>
      have hget : (Constructors.standard : Constructors α β).get? t.id = some (.unary f) :=
        hid ▸ Constructors.standard_get?_unaryFn f
      exact (ih hchild).one (push_of_arity (by omega)) harity hget
  | binary f a b iha ihb =>
    obtain ⟨us, vs, rfl, hchildren, hlast⟩ := exists_append_of_forall₂ h
    obtain ⟨us, ws, rfl, hleft, hright⟩ := exists_append_of_forall₂ hchildren
    obtain ⟨t, rfl, ht⟩ := exists_singleton_of_forall₂ hlast
    cases ht with
    | binary harity hid =>
      have hget := Constructors.standard_get?_of_hasId (α := α) (β := β) hid
      exact (iha hleft).two (ihb hright) (push_of_arity (by omega)) harity hget

theorem exists_isPostorder (h : a.Bound bindings) : ∃ ts, IsPostorder bindings ts a := by
  induction a with
  | constant c => exact ⟨[.constant c], .cons (.constant c) .nil⟩
  | tensor a => exact h.elim
  | variableLeaf name b => exact ⟨[.variableName name], .cons (.variableName h) .nil⟩
  | unary f a ih =>
    obtain ⟨ts, hts⟩ := ih h
    exact ⟨ts ++ [.function ⟨f.id, 1⟩], List.rel_append hts (.cons (.unary rfl rfl) .nil)⟩
  | binary f a b iha ihb =>
    obtain ⟨ts, hts⟩ := iha h.1
    obtain ⟨us, hus⟩ := ihb h.2
    have hlast : Token.Writes bindings (.function ⟨f.id, 2⟩) (.binary f : NodeLabel α β) :=
      .binary rfl (Or.inl rfl)
    exact ⟨ts ++ us ++ [_], List.rel_append (List.rel_append hts hus) (.cons hlast .nil)⟩

/-! ### From tokens to the tree and back -/

/-- The postorders of the trees on a stack, the deepest tree first. -/
def stackPostorder (stack : List (Node α β)) : List (NodeLabel α β) :=
  stack.reverse.flatMap postorder

theorem stackPostorder_cons (a : Node α β) (stack : List (Node α β)) :
    stackPostorder (a :: stack) = stackPostorder stack ++ a.postorder := by
  simp [stackPostorder]

/-- A token writes one node, behind all nodes on the stack. -/
theorem push_postorder (h : push .standard bindings stack t = .ok stack') :
    ∃ l, t.Writes bindings l ∧ stackPostorder stack' = stackPostorder stack ++ [l] := by
  cases t with
  | constant c =>
    obtain rfl := Except.ok.inj h
    exact ⟨.constant c, .constant c, stackPostorder_cons _ _⟩
  | variableName name =>
    simp only [push] at h
    cases hb : bindings name with
    | none => simp [hb] at h
    | some b =>
      simp only [hb, Except.ok.injEq] at h
      rw [← h]
      exact ⟨.variableLeaf name b, .variableName hb, stackPostorder_cons _ _⟩
  | unaryOperator _ | binaryOperator _ | function _ =>
    rcases reduce_standard h with ⟨f, a, rest, harity, hid, rfl, rfl⟩ |
      ⟨f, a, b, rest, harity, hid, rfl, rfl⟩
    · refine ⟨.unary f, .unary harity hid, ?_⟩
      rw [stackPostorder_cons, stackPostorder_cons, postorder, List.append_assoc]
    · refine ⟨.binary f, .binary harity hid, ?_⟩
      simp only [stackPostorder_cons, postorder, List.append_assoc]
  | _ => simp only [push, reduceCtorEq] at h

theorem foldlM_push_postorder (h : ts.foldlM (push .standard bindings) stack = .ok stack') :
    ∃ ls, List.Forall₂ (Token.Writes bindings) ts ls ∧
      stackPostorder stack' = stackPostorder stack ++ ls := by
  induction ts generalizing stack with
  | nil =>
    obtain rfl := Except.ok.inj h
    exact ⟨[], .nil, (List.append_nil _).symm⟩
  | cons t ts ih =>
    rw [List.foldlM_cons] at h
    obtain ⟨stack₁, hpush, h⟩ := exists_of_bind_eq_ok h
    obtain ⟨l, hl, hfirst⟩ := push_postorder hpush
    obtain ⟨ls, hls, hrest⟩ := ih h
    refine ⟨l :: ls, .cons hl hls, ?_⟩
    rw [hrest, hfirst, List.append_assoc]
    rfl

/-- A tree has the tokens it is built from as its postorder. -/
theorem Puts.isPostorder (h : Puts .standard bindings ts a) : IsPostorder bindings ts a := by
  obtain ⟨ls, hls, horder⟩ := foldlM_push_postorder (h [])
  rw [stackPostorder_cons] at horder
  have hself : a.postorder = ls := by simpa [stackPostorder] using horder
  rw [IsPostorder, hself]
  exact hls

theorem ofPostfix_eq_ok_iff_isPostorder :
    ofPostfix .standard bindings ts = .ok a ↔ IsPostorder bindings ts a := by
  rw [ofPostfix_eq_ok_iff]
  exact ⟨Puts.isPostorder, IsPostorder.puts⟩

theorem IsPostorder.bound (h : IsPostorder bindings ts a) : a.Bound bindings := by
  induction a generalizing ts with
  | constant c => trivial
  | tensor a =>
    obtain ⟨t, -, ht⟩ := exists_singleton_of_forall₂ h
    nomatch ht
  | variableLeaf name b =>
    obtain ⟨t, -, ht⟩ := exists_singleton_of_forall₂ h
    cases ht with
    | variableName hb => exact hb
  | unary f a ih =>
    obtain ⟨us, vs, -, hchild, -⟩ := exists_append_of_forall₂ h
    exact ih hchild
  | binary f a b iha ihb =>
    obtain ⟨us, vs, -, hchildren, -⟩ := exists_append_of_forall₂ h
    obtain ⟨us, ws, -, hleft, hright⟩ := exists_append_of_forall₂ hchildren
    exact ⟨iha hleft, ihb hright⟩

/-- Building trees and walking them in postorder undo each other. Tokens build exactly the tree whose
postorder they are; they are refused if they are the postorder of no tree or of two; and the trees
that are built are those whose leaves are constants and bound variables. -/
theorem builds_iff_isPostorder (bindings : String → Option β) :
    (∀ (ts : List (Token α)) (a : Node α β),
      ofPostfix .standard bindings ts = .ok a ↔ IsPostorder bindings ts a) ∧
    (∀ ts : List (Token α), (∃ e, (ofPostfix .standard bindings ts : Except _ (Node α β)) = .error e) ↔
      ¬ ∃! a : Node α β, IsPostorder bindings ts a) ∧
    ∀ a : Node α β, (∃ ts, ofPostfix .standard bindings ts = .ok a) ↔ a.Bound bindings := by
  refine ⟨fun ts a => ofPostfix_eq_ok_iff_isPostorder, fun ts => ?_, fun a => ?_⟩
  · cases hbuilt : (ofPostfix .standard bindings ts : Except _ (Node α β)) with
    | error e =>
      refine iff_of_true ⟨e, rfl⟩ ?_
      rintro ⟨a, ha, -⟩
      have hok := ofPostfix_eq_ok_iff_isPostorder.mpr ha
      rw [hbuilt] at hok
      nomatch hok
    | ok a =>
      refine iff_of_false (fun ⟨e, he⟩ => nomatch he) (not_not_intro ⟨a, ?_, ?_⟩)
      · exact ofPostfix_eq_ok_iff_isPostorder.mp hbuilt
      · intro b hb
        have hok := ofPostfix_eq_ok_iff_isPostorder.mpr hb
        rw [hbuilt] at hok
        exact (Except.ok.inj hok).symm
  · constructor
    · rintro ⟨ts, hts⟩
      exact (ofPostfix_eq_ok_iff_isPostorder.mp hts).bound
    · intro h
      obtain ⟨ts, hts⟩ := exists_isPostorder h
      exact ⟨ts, ofPostfix_eq_ok_iff_isPostorder.mpr hts⟩

end Node

end FormulaCalculus
