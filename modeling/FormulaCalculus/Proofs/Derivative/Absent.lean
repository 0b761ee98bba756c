import FormulaCalculus.Proofs.Derivative.Shape

/-!
Derivatives with respect to a variable that a tree does not mention. No part of such a tree is
evaluated: the derivative is the symbol for zero in the joint shape of the leaves, and it fails only
where the leaves have no joint shape. A derived tree takes every variable to be of scalar shape.
-/

namespace FormulaCalculus

variable {α β : Type}

namespace Node

theorem mem_insertName {m n : String} {ns : List String} :
    m ∈ insertName n ns ↔ m = n ∨ m ∈ ns := by
  induction ns with
  | nil => rw [insertName, List.mem_singleton, or_iff_left List.not_mem_nil]
  | cons k ns ih =>
    rw [insertName]
    split_ifs with hlt heq
    · rw [List.mem_cons]
    · obtain rfl := heq
      rw [List.mem_cons, or_self_left]
    · rw [List.mem_cons, ih, List.mem_cons, or_left_comm]

theorem mem_variableNames {n : String} {a : Node α β} : n ∈ a.variableNames ↔ n ∈ a.names := by
  unfold variableNames
  induction a.names with
  | nil => rfl
  | cons m ns ih => rw [List.foldr_cons, mem_insertName, ih, List.mem_cons]

/-- The joint shape of the leaves, found at each node from those of its operands. -/
def joinLeaves (shapeOf : β → Shape) : Node α β → Except (AlgebraError α) Shape
  | constant c => .ok c.shape
  | tensor a => .ok a.shape
  | variableLeaf _ b => .ok (shapeOf b)
  | unary _ a => a.joinLeaves shapeOf
  | binary _ a b => do
    let s ← a.joinLeaves shapeOf
    let t ← b.joinLeaves shapeOf
    Tensor.joinShapes s t

variable {shapeOf : β → Shape} {a : Node α β} {s : Shape} {wrt : String}

theorem joinLeaves_eq_ok_iff : a.joinLeaves shapeOf = .ok s ↔ a.leafShape? shapeOf = some s := by
  induction a generalizing s with
  | constant _ | tensor _ | variableLeaf _ _ =>
    simp only [joinLeaves, leafShape?, leafShapes, Shape.joinAll?_singleton, Except.ok.injEq,
      Option.some.injEq]
  | unary f a ih => exact ih
  | binary f a b iha ihb =>
    rw [leafShape?_binary, Option.bind_eq_some_iff]
    constructor
    · intro h
      obtain ⟨l, hl, h⟩ := exists_of_bind_eq_ok h
      obtain ⟨r, hr, h⟩ := exists_of_bind_eq_ok h
      refine ⟨l, iha.mp hl, ?_⟩
      rw [ihb.mp hr, Option.bind_some]
      exact Tensor.joinShapes_eq_ok.mp h
    · rintro ⟨l, hl, h⟩
      obtain ⟨r, hr, h⟩ := Option.bind_eq_some_iff.mp h
      rw [joinLeaves, iha.mpr hl, ihb.mpr hr]
      exact Tensor.joinShapes_eq_ok.mpr h

theorem joinLeaves_eq_error {e : AlgebraError α} (h : a.joinLeaves shapeOf = .error e) :
    ∃ s t, e = .broadcast s t := by
  induction a with
  | constant _ | tensor _ | variableLeaf _ _ => nomatch h
  | unary f a ih => exact ih h
  | binary f a b iha ihb =>
    rw [joinLeaves] at h
    cases hl : a.joinLeaves shapeOf with
    | error d =>
      rw [hl] at h
      exact iha (hl.trans h)
    | ok l =>
      cases hr : b.joinLeaves shapeOf with
      | error d =>
        rw [hl, hr] at h
        exact ihb (hr.trans h)
      | ok r =>
        rw [hl, hr] at h
        change Tensor.joinShapes l r = .error e at h
        unfold Tensor.joinShapes at h
        split at h
        · nomatch h
        · exact ⟨l, r, (Except.error.inj h).symm⟩

/-- A calculation that answers with a term for the joint shape of the leaves does so if there is
one, and fails for want of it if there is none. -/
theorem map_joinLeaves_ends {τ : Type} {m : Except (AlgebraError α) τ} {g : Shape → τ}
    (hg : Function.Injective g) (h : m = (a.joinLeaves shapeOf).map g) :
    (∀ s, m = .ok (g s) ↔ a.leafShape? shapeOf = some s) ∧
      ((∃ s t, m = .error (.broadcast s t)) ↔ a.leafShape? shapeOf = none) := by
  subst h
  cases hjoin : a.joinLeaves shapeOf with
  | ok u =>
    rw [joinLeaves_eq_ok_iff.mp hjoin]
    refine ⟨fun s => ?_, ?_⟩
    · rw [Except.map, Except.ok.injEq, hg.eq_iff, Option.some.injEq]
    · exact iff_of_false (fun ⟨s, t, h⟩ => nomatch h) (Option.some_ne_none u)
  | error e =>
    obtain ⟨s, t, rfl⟩ := joinLeaves_eq_error hjoin
    have hnone : a.leafShape? shapeOf = none := by
      rw [Option.eq_none_iff_forall_ne_some]
      intro u hu
      rw [joinLeaves_eq_ok_iff.mpr hu] at hjoin
      nomatch hjoin
    rw [hnone]
    exact ⟨fun u => iff_of_false (fun h => nomatch h) (fun h => nomatch h),
      iff_of_true ⟨s, t, rfl⟩ rfl⟩

variable [Scalar α] {read : β → Tensor α}

theorem onConstants_add_zero (s t : Shape) :
    BinaryFn.add.onConstants (.zero s : Constant α) (.zero t) =
      (Tensor.joinShapes s t).map .zero := by
  unfold BinaryFn.onConstants
  change (Tensor.joinShapes s t >>= _) = _
  cases (Tensor.joinShapes s t : Except (AlgebraError α) Shape) <;> rfl

omit [Scalar α] in
/-- Where the zeros of two shapes combine to that of their joint shape, calculations that answer
with zeros do so too. -/
theorem map_joinShapes {τ : Type} {g : Shape → τ} {combine : τ → τ → Except (AlgebraError α) τ}
    (h : ∀ s t, combine (g s) (g t) = (Tensor.joinShapes s t).map g)
    (x y : Except (AlgebraError α) Shape) :
    (do let l ← x.map g; let r ← y.map g; combine l r) =
      (do let s ← x; let t ← y; Tensor.joinShapes s t).map g := by
  cases x with
  | error e => rfl
  | ok s =>
    cases y with
    | error e => rfl
    | ok t => exact h s t

/-- A variable that does not occur is never reached, so every part has derivative zero and none is
evaluated. -/
theorem diff_eq_joinLeaves (h : wrt ∉ a.names) :
    a.diff read wrt =
      (a.joinLeaves fun b => (read b).shape).map fun s => .symbol (.zero s) := by
  induction a with
  | constant _ | tensor _ => rfl
  | variableLeaf name b =>
    have hname : name ≠ wrt := fun heq => h (List.mem_singleton.mpr heq.symm)
    rw [diff, if_neg hname]
    rfl
  | unary f a ih =>
    rw [diff, joinLeaves, ih h]
    cases a.joinLeaves fun b => (read b).shape <;> rfl
  | binary f a b iha ihb =>
    obtain ⟨hleft, hright⟩ := not_or.mp (mt List.mem_append.mpr h)
    rw [diff, joinLeaves, iha hleft, ihb hright]
    apply map_joinShapes
    intro s t
    change (BinaryFn.add.onConstants (.zero s) (.zero t) >>= fun c => .ok (Value.symbol c)) = _
    rw [onConstants_add_zero]
    cases (Tensor.joinShapes s t : Except (AlgebraError α) Shape) <;> rfl

theorem derivative_eq_joinLeaves (h : wrt ∉ a.names) :
    a.derivative wrt =
      (a.joinLeaves fun _ => Shape.scalar).map fun s => constant (.zero s) := by
  induction a with
  | constant _ | tensor _ => rfl
  | variableLeaf name b =>
    have hname : name ≠ wrt := fun heq => h (List.mem_singleton.mpr heq.symm)
    rw [derivative, if_neg hname]
    rfl
  | unary f a ih =>
    rw [derivative, joinLeaves, ih h]
    cases a.joinLeaves fun _ => Shape.scalar <;> rfl
  | binary f a b iha ihb =>
    obtain ⟨hleft, hright⟩ := not_or.mp (mt List.mem_append.mpr h)
    rw [derivative, joinLeaves, iha hleft, ihb hright]
    apply map_joinShapes
    intro s t
    change (BinaryFn.add.onConstants (.zero s) (.zero t) >>= fun c => .ok (constant c)) = _
    rw [onConstants_add_zero]
    cases (Tensor.joinShapes s t : Except (AlgebraError α) Shape) <;> rfl

/-- The derivative with respect to a variable that does not occur is the symbol for zero in the
joint shape of the leaves, or there is no such shape. -/
theorem derivative_of_absent (h : wrt ∉ a.variableNames) (read : β → Tensor α) :
    ((∀ s, a.diff read wrt = .ok (.symbol (.zero s)) ↔
        a.leafShape? (fun b => (read b).shape) = some s) ∧
      ((∃ s t, a.diff read wrt = .error (.broadcast s t)) ↔
        a.leafShape? (fun b => (read b).shape) = none)) ∧
    (∀ s, a.derivative wrt = .ok (constant (.zero s)) ↔
        a.leafShape? (fun _ => Shape.scalar) = some s) ∧
      ((∃ s t, a.derivative wrt = .error (.broadcast s t)) ↔
        a.leafShape? (fun _ => Shape.scalar) = none) := by
  rw [mem_variableNames] at h
  refine ⟨map_joinLeaves_ends ?_ (diff_eq_joinLeaves h),
    map_joinLeaves_ends ?_ (derivative_eq_joinLeaves h)⟩
  · intro s t hst
    exact Constant.zero.inj (Value.symbol.inj hst)
  · intro s t hst
    exact Constant.zero.inj (constant.inj hst)

/-- The product of `2i` and `x` has no value, and derivative zero with respect to `y`. -/
theorem derivative_of_absent_product :
    let n : Node Double Unit :=
      .binary .mul (.constant (.number (.ofImaginary Scalar.two))) (.variableLeaf "x" ())
    let read (_ : Unit) : Tensor Double := .replicate [2, 3] Scalar.nan
    "y" ∉ n.variableNames ∧ (∃ z name, n.eval read = .error (.complexMaterialization z name)) ∧
      n.diff read "y" = .ok (.symbol (.zero [2, 3])) ∧
      n.derivative "y" = .ok (.constant (.zero [1])) := by
  intro n read
  have habsent : "y" ∉ n.variableNames := by decide
  obtain ⟨⟨hdiff, -⟩, hderivative, -⟩ := derivative_of_absent habsent read
  exact ⟨habsent, ⟨_, _, rfl⟩, (hdiff [2, 3]).mpr rfl, (hderivative [1]).mpr rfl⟩

end Node

end FormulaCalculus
