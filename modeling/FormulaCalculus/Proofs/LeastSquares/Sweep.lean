import FormulaCalculus.Proofs.LeastSquares.Memory

/-!
The evaluations behind finite differences. The points are known before the first of them is
evaluated, and what is calculated from the residuals cannot fail, so differences fail where the
first point that is refused is reached, and for its reason.
-/

namespace FormulaCalculus

open Stateful (answer leaves)

namespace Problem

variable {σ α β γ δ : Type} [Scalar α] {p : Problem σ α} {s : σ} {q : List α}
  {points points' : List (List α)} {e : Error α}

/-! ### Points -/

/-- The points of a Jacobian: a step forward and a step back for each parameter. -/
def jacobianSweep (eps : α) (params : List α) : List (List α) :=
  params.zipIdx.flatMap fun (x, j) =>
    [params.modify j fun y => y + stepFor x eps, params.modify j fun y => y - stepFor x eps]

/-- The points around the parameters for one pair of them. -/
def pairSweep (eps : α) (params : List α) : (Nat × α) × (Nat × α) → List (List α)
  | ((i, x), (j, y)) =>
    let h := stepFor x eps
    let k := stepFor y eps
    if i = j then [shift params [(i, h)], shift params [(i, -h)]]
    else
      [shift params [(i, h), (j, k)], shift params [(i, h), (j, -k)],
        shift params [(i, -h), (j, k)], shift params [(i, -h), (j, -k)]]

/-- The points of a Hessian: the parameters themselves, then those for each pair. -/
def hessianSweep (eps : α) (params : List α) : List (List α) :=
  params :: (lowerPairs params).flatMap (pairSweep eps params)

/-! ### Refusals -/

omit [Scalar α] in
/-- What is wrong with an evaluation: its own error, or the number of its residuals. -/
def refusalAt? (p : Problem σ α) (s : σ) (q : List α) : Option (Error α) :=
  match answer (p.eval q) s with
  | .error e => some e
  | .ok r =>
    if r.length = p.residualCount then none
    else some (.dimensionMismatch (.residuals p.residualCount r.length))

omit [Scalar α] in
/-- What is wrong with the first evaluation to be refused. -/
def refusal? (p : Problem σ α) : σ → List (List α) → Option (Error α)
  | _, [] => none
  | s, q :: points => (p.refusalAt? s q).or (p.refusal? (leaves (p.eval q) s) points)

/-- The state behind the evaluations at points. -/
def stateBehind (p : Problem σ α) (s : σ) (points : List (List α)) : σ :=
  p.stateAfter s (points.map Call.eval)

theorem refusal?_append :
    p.refusal? s (points ++ points') =
      (p.refusal? s points).or (p.refusal? (p.stateBehind s points) points') := by
  induction points generalizing s with
  | nil => rfl
  | cons q points ih =>
    rw [List.cons_append, refusal?, refusal?, ih, Option.or_assoc]
    rfl

theorem stateBehind_append :
    p.stateBehind s (points ++ points') = p.stateBehind (p.stateBehind s points) points' := by
  rw [stateBehind, stateAfter, List.map_append, List.foldl_append]
  rfl

omit [Scalar α] in
/-- Whether an evaluation fails or has not the declared number of residuals. -/
def Refused (p : Problem σ α) (s : σ) (q : List α) : Prop :=
  (∃ e, answer (p.eval q) s = .error e) ∨
    ∃ r, answer (p.eval q) s = .ok r ∧ r.length ≠ p.residualCount

omit [Scalar α] in
theorem isSome_refusalAt?_iff : (p.refusalAt? s q).isSome ↔ p.Refused s q := by
  unfold refusalAt? Refused
  cases answer (p.eval q) s with
  | error e => simp
  | ok r => simp [ne_eq]

theorem isSome_refusal?_iff :
    (p.refusal? s points).isSome ↔ ∃ before q after, points = before ++ q :: after ∧
      p.Refused (p.stateBehind s before) q := by
  constructor
  · intro h
    -- the points behind the first one are evaluated in the state that it leaves
    induction points generalizing s with
    | nil => nomatch h
    | cons q points ih =>
      rw [refusal?, Option.isSome_or, Bool.or_eq_true] at h
      rcases h with hfirst | hthen
      · exact ⟨[], q, points, rfl, isSome_refusalAt?_iff.mp hfirst⟩
      · obtain ⟨before, r, after, rfl, hr⟩ := ih hthen
        exact ⟨q :: before, r, after, rfl, hr⟩
  · rintro ⟨before, q, after, rfl, h⟩
    rw [refusal?_append, refusal?, Option.isSome_or, Option.isSome_or,
      isSome_refusalAt?_iff.mpr h, Bool.true_or, Bool.or_true]

/-! ### Runs along points -/

/-- Whether a calculation evaluates at points, one after the other, and fails only where an
evaluation is refused. -/
structure Sweeps (p : Problem σ α) (points : List (List α)) (x : Stateful σ α β) : Prop where
  refused : ∀ s e, p.refusal? s points = some e → answer x s = .error e
  completed : ∀ s, p.refusal? s points = none →
    (∃ b, answer x s = .ok b) ∧ leaves x s = p.stateBehind s points

namespace Sweeps

variable {x : Stateful σ α β} {f : β → Stateful σ α γ}

theorem pure (b : β) : p.Sweeps [] (pure b : Stateful σ α β) where
  refused _ _ h := nomatch h
  completed _ _ := ⟨⟨b, rfl⟩, rfl⟩

theorem bind (hx : p.Sweeps points x) (hf : ∀ b, p.Sweeps points' (f b)) :
    p.Sweeps (points ++ points') (x >>= f) where
  refused s e h := by
    rw [refusal?_append, Option.or_eq_some_iff] at h
    rcases h with hfirst | ⟨hnone, hthen⟩
    · exact (Stateful.bind_of_error (hx.refused s e hfirst) f).1
    · obtain ⟨⟨b, hb⟩, hleaves⟩ := hx.completed s hnone
      rw [(Stateful.bind_of_ok hb f).1, hleaves]
      exact (hf b).refused _ e hthen
  completed s h := by
    rw [refusal?_append, Option.or_eq_none_iff] at h
    obtain ⟨⟨b, hb⟩, hleaves⟩ := hx.completed s h.1
    rw [(Stateful.bind_of_ok hb f).1, (Stateful.bind_of_ok hb f).2, hleaves, stateBehind_append]
    exact (hf b).completed _ h.2

/-- What is calculated behind the evaluations. -/
theorem map (hx : p.Sweeps points x) (g : β → γ) :
    p.Sweeps points (x >>= fun b => Pure.pure (g b)) := by
  rw [← List.append_nil points]
  exact hx.bind fun b => pure (g b)

theorem mapM {g : γ → Stateful σ α β} {sweep : γ → List (List α)}
    (hg : ∀ c, p.Sweeps (sweep c) (g c)) (l : List γ) :
    p.Sweeps (l.flatMap sweep) (l.mapM g) := by
  induction l with
  | nil => exact pure []
  | cons c l ih =>
    rw [List.mapM_cons, List.flatMap_cons]
    exact (hg c).bind fun b => ih.map fun bs => b :: bs

theorem residualColumn (q : List α) : p.Sweeps [q] (p.residualColumn q) where
  refused s e h := by
    rw [refusal?, refusal?, Option.or_none] at h
    unfold refusalAt? at h
    cases heval : answer (p.eval q) s with
    | error d =>
      rw [heval] at h
      exact Option.some.inj h ▸ (Stateful.bind_of_error heval _).1
    | ok r =>
      rw [heval] at h
      dsimp only at h
      split_ifs at h with hlength
      rw [Problem.residualColumn, (Stateful.bind_of_ok heval _).1, dif_neg hlength]
      exact congrArg Except.error (Option.some.inj h)
  completed s h := by
    rw [refusal?, refusal?, Option.or_none] at h
    unfold refusalAt? at h
    cases heval : answer (p.eval q) s with
    | error d =>
      rw [heval] at h
      nomatch h
    | ok r =>
      rw [heval] at h
      dsimp only at h
      split_ifs at h with hlength
      rw [Problem.residualColumn, (Stateful.bind_of_ok heval _).1, (Stateful.bind_of_ok heval _).2,
        dif_pos hlength]
      exact ⟨⟨_, rfl⟩, rfl⟩

/-- It fails for the reason that the first evaluation is refused for. -/
theorem answer_eq_error_iff (hx : p.Sweeps points x) :
    answer x s = .error e ↔ p.refusal? s points = some e := by
  constructor
  · intro h
    cases hrefusal : p.refusal? s points with
    | none =>
      obtain ⟨⟨b, hb⟩, -⟩ := hx.completed s hrefusal
      nomatch hb.symm.trans h
    | some d =>
      have hd := hx.refused s d hrefusal
      rw [Except.error.inj (hd.symm.trans h)]
  · exact hx.refused s e

theorem fails_iff (hx : p.Sweeps points x) :
    (∃ e, answer x s = .error e) ↔ ∃ before q after, points = before ++ q :: after ∧
      p.Refused (p.stateBehind s before) q := by
  rw [← isSome_refusal?_iff, Option.isSome_iff_exists]
  exact exists_congr fun e => hx.answer_eq_error_iff

theorem differenceColumn (params : List α) (eps : α) (j : Nat) (x : α) :
    p.Sweeps
      [params.modify j fun y => y + stepFor x eps, params.modify j fun y => y - stepFor x eps]
      (p.differenceColumn params eps j x) :=
  (residualColumn _).bind fun _ => (residualColumn _).map _

theorem diagonalColumn (center : Column α p.residualCount) (params : List α) (i : Nat) (h : α) :
    p.Sweeps [shift params [(i, h)], shift params [(i, -h)]]
      (p.diagonalColumn center params i h) :=
  (residualColumn _).bind fun _ => (residualColumn _).map _

theorem mixedColumn (params : List α) (i j : Nat) (h k : α) :
    p.Sweeps
      [shift params [(i, h), (j, k)], shift params [(i, h), (j, -k)],
        shift params [(i, -h), (j, k)], shift params [(i, -h), (j, -k)]]
      (p.mixedColumn params i j h k) :=
  (residualColumn _).bind fun _ => (residualColumn _).bind fun _ =>
    (residualColumn _).bind fun _ => (residualColumn _).map _

theorem differenceJacobian (eps : α) (params : List α) :
    p.Sweeps (jacobianSweep eps params) (p.differenceJacobian eps params) :=
  (mapM (fun (x, j) => differenceColumn params eps j x) _).map _

theorem differenceHessian (eps : α) (params : List α) :
    p.Sweeps (hessianSweep eps params) (p.differenceHessian eps params) := by
  refine (residualColumn params).bind fun center => (mapM ?_ _).map _
  rintro ⟨⟨i, x⟩, j, y⟩
  dsimp only [pairSweep]
  split
  · exact (diagonalColumn center params i _).map _
  · exact (mixedColumn params i j _ _).map _

end Sweeps

end Problem

end FormulaCalculus
