import FormulaCalculus.Algebra.Reduction
import FormulaCalculus.Proofs.Tree.Order
import FormulaCalculus.Scalar.Double
import FormulaCalculus.Tree.Eval

/-!
Operators and functions applied to constants: at once, or by way of a tree that is built from the
constants and the token and then evaluated. Both ways know the same ids and ask for the same number
of operands, so they give the same constant or are refused together.
-/

namespace FormulaCalculus

variable {α β : Type}

namespace UnaryFn

theorem ofId?_eq_some_iff {i : TokenId} {f : UnaryFn} : ofId? i = some f ↔ i = f.id := by
  constructor
  · intro h
    unfold ofId? at h
    have hid := List.find?_some h
    exact (beq_iff_eq.mp hid).symm
  · rintro rfl
    cases f <;> rfl

end UnaryFn

namespace BinaryFn

theorem ofId?_eq_some_iff {i : TokenId} {f : BinaryFn} : ofId? i = some f ↔ f.HasId i := by
  unfold ofId?
  constructor
  · intro h
    split_ifs at h with hpow
    · exact Or.inr ⟨(Option.some.inj h).symm, beq_iff_eq.mp hpow⟩
    · have hid := List.find?_some h
      exact Or.inl (beq_iff_eq.mp hid).symm
  · rintro (rfl | ⟨rfl, rfl⟩)
    · cases f <;> rfl
    · rfl

end BinaryFn

namespace Token

variable {t : Token α} {cs : List (Constant α)} {a : Node α β}

/-- Whether a token makes a tree of constants: it has the id of the function at the root, and takes
as many operands as there are constants. -/
inductive Forms (t : Token α) : List (Constant α) → Node α β → Prop
  | unary {f : UnaryFn} (harity : t.arity = 1) (hid : t.id = f.id) (c : Constant α) :
      Forms t [c] (.unary f (.constant c))
  | binary {f : BinaryFn} (harity : t.arity = 2) (hid : f.HasId t.id) (c d : Constant α) :
      Forms t [c, d] (.binary f (.constant c) (.constant d))

theorem mapM_asConstant (i : TokenId) (cs : List (Constant α)) :
    (cs.map constant).mapM (asConstant i) = .ok cs := by
  induction cs with
  | nil => rfl
  | cons c cs ih =>
    rw [List.map_cons, List.mapM_cons, ih]
    rfl

variable [Scalar α]

/-- The tree that a token makes of constants evaluates to what the token gives at once. -/
theorem Forms.eval (h : t.Forms cs a) (read : β → Tensor α) :
    a.eval read = (t.apply (cs.map constant)).map .symbol := by
  unfold apply
  rw [mapM_asConstant]
  cases h with
  | unary harity hid c =>
    rw [harity, UnaryFn.ofId?_eq_some_iff.mpr hid]
    rfl
  | @binary f harity hid c d =>
    rw [harity, BinaryFn.ofId?_eq_some_iff.mpr hid]
    change f.onConstants c d >>= _ = (f.onConstants c d).map Value.symbol
    cases f.onConstants c d <;> rfl

/-- A token that makes no tree of the constants is refused. -/
theorem apply_of_not_forms (h : ∀ a : Node α β, ¬ t.Forms cs a) :
    ∃ use, t.apply (cs.map constant) = .error (.unsupported use) := by
  unfold apply
  rw [mapM_asConstant]
  dsimp only [bind, Except.bind]
  split
  · rename_i c harity
    cases hfn : UnaryFn.ofId? t.id with
    | none => exact ⟨_, rfl⟩
    | some f => exact absurd (.unary harity (UnaryFn.ofId?_eq_some_iff.mp hfn) c) (h _)
  · rename_i c d harity
    cases hfn : BinaryFn.ofId? t.id with
    | none => exact ⟨_, rfl⟩
    | some f => exact absurd (.binary harity (BinaryFn.ofId?_eq_some_iff.mp hfn) c d) (h _)
  · exact ⟨_, rfl⟩

end Token

namespace Node

variable {bindings : String → Option β} {t : Token α} {cs : List (Constant α)} {a : Node α β}

/-- The last token writes the last node, and the tokens before it the nodes before. -/
theorem forall₂_of_append_singleton {ts : List (Token α)} (ls : List (NodeLabel α β))
    {l : NodeLabel α β} (h : List.Forall₂ (Token.Writes bindings) (ts ++ [t]) (ls ++ [l])) :
    List.Forall₂ (Token.Writes bindings) ts ls ∧ t.Writes bindings l := by
  obtain ⟨us, vs, hsplit, hus, hvs⟩ := exists_append_of_forall₂ h
  obtain ⟨u, rfl, hu⟩ := exists_singleton_of_forall₂ hvs
  obtain ⟨rfl, hlast⟩ := List.append_inj' hsplit rfl
  obtain rfl := List.singleton_inj.mp hlast
  exact ⟨hus, hu⟩

/-- Constants alone are the postorder of a leaf only. -/
theorem IsPostorder.eq_constant (h : IsPostorder bindings (cs.map .constant) a) :
    ∃ c, cs = [c] ∧ a = .constant c := by
  -- the root stands last, and no constant is an inner node
  have hlast (us : List (NodeLabel α β)) {l : NodeLabel α β}
      (h : List.Forall₂ (Token.Writes bindings) (cs.map .constant) (us ++ [l])) :
      ∃ c : Constant α, (Token.constant c).Writes bindings l := by
    obtain ⟨ts, vs, hsplit, -, hvs⟩ := exists_append_of_forall₂ h
    obtain ⟨t, rfl, ht⟩ := exists_singleton_of_forall₂ hvs
    have hmem : t ∈ cs.map Token.constant := by
      rw [hsplit]
      simp
    obtain ⟨c, -, rfl⟩ := List.mem_map.mp hmem
    exact ⟨c, ht⟩
  cases a with
  | constant c =>
    obtain ⟨t, hcs, ht⟩ := exists_singleton_of_forall₂ h
    obtain ⟨d, rfl, rfl⟩ := List.map_eq_singleton_iff.mp hcs
    cases ht
    exact ⟨c, rfl, rfl⟩
  | tensor a =>
    obtain ⟨t, -, ht⟩ := exists_singleton_of_forall₂ h
    nomatch ht
  | variableLeaf name b =>
    obtain ⟨c, hc⟩ := hlast [] h
    nomatch hc
  | unary f a =>
    obtain ⟨c, hc⟩ := hlast _ h
    cases hc with
    | unary harity hid => nomatch harity
  | binary f a b =>
    obtain ⟨c, hc⟩ := hlast _ h
    cases hc with
    | binary harity hid => nomatch harity

/-- What is built from constants with an operator or function behind them. -/
theorem ofPostfix_constants_iff (ht : t.isOperand = false) :
    ofPostfix .standard bindings (cs.map .constant ++ [t]) = .ok a ↔ t.Forms cs a := by
  rw [ofPostfix_eq_ok_iff_isPostorder]
  constructor
  · intro h
    -- the token is no operand, so that it stands for an inner node
    have hleaf {l : NodeLabel α β} (hl : t.Writes bindings l) : l.isLeaf = false :=
      hl.isOperand_eq.symm.trans ht
    cases a with
    | constant _ | tensor _ | variableLeaf _ _ =>
      exact nomatch hleaf (forall₂_of_append_singleton [] h).2
    | unary f a =>
      obtain ⟨hchild, hroot⟩ := forall₂_of_append_singleton _ h
      obtain ⟨c, rfl, rfl⟩ := IsPostorder.eq_constant hchild
      cases hroot with
      | unary harity hid => exact .unary harity hid c
    | binary f a b =>
      obtain ⟨hchildren, hroot⟩ := forall₂_of_append_singleton _ h
      obtain ⟨us, vs, hsplit, hleft, hright⟩ := exists_append_of_forall₂ hchildren
      obtain ⟨cs, ds, rfl, rfl, rfl⟩ := List.map_eq_append_iff.mp hsplit
      obtain ⟨c, rfl, rfl⟩ := IsPostorder.eq_constant hleft
      obtain ⟨d, rfl, rfl⟩ := IsPostorder.eq_constant hright
      cases hroot with
      | binary harity hid => exact .binary harity hid c d
  · intro h
    cases h with
    | unary harity hid c => exact .cons (.constant c) (.cons (.unary harity hid) .nil)
    | binary harity hid c d =>
      exact .cons (.constant c) (.cons (.constant d) (.cons (.binary harity hid) .nil))

end Node

namespace Token

variable [Scalar α] {t : Token α}

/-- An operator or function applied to constants at once agrees with the tree that is built from the
constants and the token. The constant is the one to which the tree evaluates, and the token is
refused exactly if no tree is built or the tree has no value. -/
theorem apply_agrees (bindings : String → Option β) (read : β → Tensor α)
    (ht : t.isOperand = false) (cs : List (Constant α)) :
    (∀ c, t.apply (cs.map .constant) = .ok c ↔
      ∃ a, Node.ofPostfix .standard bindings (cs.map .constant ++ [t]) = .ok a ∧
        a.eval read = .ok (.symbol c)) ∧
    ((∃ e, t.apply (cs.map .constant) = .error e) ↔
      (∃ e, Node.ofPostfix .standard bindings (cs.map .constant ++ [t]) = .error e) ∨
      ∃ a e, Node.ofPostfix .standard bindings (cs.map .constant ++ [t]) = .ok a ∧
        a.eval read = .error e) := by
  have hforms (a : Node α β) :
      Node.ofPostfix .standard bindings (cs.map .constant ++ [t]) = .ok a ↔ t.Forms cs a :=
    Node.ofPostfix_constants_iff ht
  cases hbuilt : Node.ofPostfix .standard bindings (cs.map .constant ++ [t]) with
  | error e =>
    have hnone (a : Node α β) : ¬ t.Forms cs a := by
      intro h
      have hok := (hforms a).mpr h
      rw [hbuilt] at hok
      nomatch hok
    obtain ⟨use, happly⟩ := apply_of_not_forms hnone
    rw [happly]
    simp
  | ok a =>
    have heval := ((hforms a).mp hbuilt).eval read
    cases happly : t.apply (cs.map .constant) with
    | ok c =>
      rw [happly] at heval
      simp [heval, Except.map]
    | error e =>
      rw [happly] at heval
      simp [heval, Except.map]

/-- The call of the power function, whose id is not the power's own, on a constant and a half. -/
theorem apply_agrees_powCall :
    let t : Token Double := .function ⟨TokenId.powCall, 2⟩
    let cs : List (Constant Double) :=
      [.number ⟨.unit, true, [2]⟩, .number ⟨.ofReal Scalar.half, false, []⟩]
    t.isOperand = false ∧ ∀ c, t.apply (cs.map .constant) = .ok c ↔
      ∃ a : Node Double Empty, Node.ofPostfix .standard (fun _ => none)
          (cs.map .constant ++ [t]) = .ok a ∧
        a.eval Empty.elim = .ok (.symbol c) := by
  intro t cs
  exact ⟨rfl, (apply_agrees (fun _ => none) Empty.elim rfl cs).1⟩

end Token

end FormulaCalculus
