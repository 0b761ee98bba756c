import FormulaCalculus.Proofs.Derivative.Closure
import FormulaCalculus.Proofs.Tree.Compiled

/-!
The variables of a tree and what they are bound to. Compilation binds each variable as it is told,
and a derived tree has no variable that the tree does not have. The value of a tree, and of its
derivatives, depends on nothing but what the bindings of its variables read as.
-/

namespace FormulaCalculus

namespace Node

variable {α β : Type}

/-- The variables with their bindings, from left to right. -/
def bindings : Node α β → List (String × β)
  | constant _ | tensor _ => []
  | variableLeaf name b => [(name, b)]
  | unary _ a => a.bindings
  | binary _ a b => a.bindings ++ b.bindings

variable [Scalar α] {read read' : β → Tensor α} {a b n : Node α β} {wrt : String}

/-! ### Values -/

theorem eval_congr (h : ∀ p ∈ a.bindings, read p.2 = read' p.2) : a.eval read = a.eval read' := by
  induction a with
  | constant _ | tensor _ => rfl
  | variableLeaf name b =>
    have hread := h (name, b) List.mem_cons_self
    simp only [eval, hread]
  | unary f a ih =>
    rw [eval, eval, ih h]
  | binary f a b iha ihb =>
    obtain ⟨hleft, hright⟩ := List.forall_mem_append.mp h
    rw [eval, eval, iha hleft, ihb hright]

theorem diff_congr (h : ∀ p ∈ a.bindings, read p.2 = read' p.2) :
    a.diff read wrt = a.diff read' wrt := by
  induction a with
  | constant _ | tensor _ => rfl
  | variableLeaf name b =>
    have hread := h (name, b) List.mem_cons_self
    simp only [diff, hread]
  | unary f a ih =>
    have hvalue : a.eval read = a.eval read' := eval_congr h
    rw [diff, diff, ih h, hvalue]
  | binary f a b iha ihb =>
    obtain ⟨hleft, hright⟩ := List.forall_mem_append.mp h
    rw [diff, diff, iha hleft, ihb hright, eval_congr hleft, eval_congr hright]

/-! ### Derived trees -/

theorem bindings_smartUnary (f : UnaryFn) (a : Node α β) :
    (smartUnary f a).bindings = a.bindings := by
  fun_cases smartUnary f a <;> rfl

theorem Simplifies.bindings_subset {f : BinaryFn} (h : Simplifies f a b n) :
    n.bindings ⊆ a.bindings ++ b.bindings := by
  have hleft : a.bindings ⊆ a.bindings ++ b.bindings := List.subset_append_left _ _
  have hright : b.bindings ⊆ a.bindings ++ b.bindings := List.subset_append_right _ _
  cases h with
  | keepLeft _ _ | powUnity _ _ => exact hleft
  | keepRight _ _ => exact hright
  | negLeft _ _ =>
    rw [bindings_smartUnary]
    exact hleft
  | negRight _ _ =>
    rw [bindings_smartUnary]
    exact hright
  | zeroMul _ _ | mulZero _ _ | powZero _ _ => exact List.nil_subset _

theorem bindings_smartBinary_subset {f : BinaryFn} (h : smartBinary f a b = .ok n) :
    n.bindings ⊆ a.bindings ++ b.bindings := by
  rcases smartBinary_cases f a b with ⟨c, d, rfl, rfl, hfold⟩ | ⟨m, hm, hsmart⟩ | hplain
  · obtain ⟨e, -, h⟩ := exists_of_bind_eq_ok (hfold.symm.trans h)
    obtain rfl := Except.ok.inj h
    exact List.nil_subset _
  · obtain rfl := Except.ok.inj (hsmart.symm.trans h)
    exact hm.bindings_subset
  · obtain rfl := Except.ok.inj (hplain.symm.trans h)
    exact List.Subset.refl _

/-- A property of bindings that all variables of a tree have is one of the derived tree's. -/
theorem inherited_bindings (P : String × β → Prop) :
    Inherited fun a : Node α β => ∀ p ∈ a.bindings, P p where
  one := List.forall_mem_nil P
  half := List.forall_mem_nil P
  two := List.forall_mem_nil P
  ln10 := List.forall_mem_nil P
  unary f a ha := by
    change ∀ p ∈ (smartUnary f a).bindings, P p
    rw [bindings_smartUnary]
    exact ha
  binary f a b n ha hb h := by
    intro p hp
    rcases List.mem_append.mp (bindings_smartBinary_subset h hp) with hp | hp
    · exact ha p hp
    · exact hb p hp
  scalarZero := List.forall_mem_nil P
  constantZero _ _ := List.forall_mem_nil P
  tensorZero _ _ := List.forall_mem_nil P
  unaryChild _ _ h := h
  binaryChildren _ _ _ h := List.forall_mem_append.mp h

theorem bindings_derivative_subset (h : a.derivative wrt = .ok n) : n.bindings ⊆ a.bindings :=
  (inherited_bindings (· ∈ a.bindings)).derivative (fun _ hp => hp) h

/-! ### Compiled trees -/

omit [Scalar α] in
theorem constructive_bindings (f : String → Option β) :
    Constructive f (fun _ : Token α => True) fun a => ∀ p ∈ a.bindings, f p.1 = some p.2 where
  constant _ _ := List.forall_mem_nil _
  variableLeaf name b _ hb := by
    intro p hp
    obtain rfl := List.mem_singleton.mp hp
    exact hb
  unary _ _ h := h
  binary _ _ _ ha hb := List.forall_mem_append.mpr ⟨ha, hb⟩

/-- Each variable of a compiled tree is bound as it was looked up. -/
theorem bindings_of_compile {l : Lexicon} {f : String → Option β} {source : String}
    {e : Expression α β} (h : Expression.compile l f source = .ok e) :
    ∀ p ∈ e.root.bindings, f p.1 = some p.2 :=
  (constructive_bindings f).compile (fun _ _ _ _ => trivial) h

end Node

end FormulaCalculus
