import FormulaCalculus.LeastSquares.Fit
import FormulaCalculus.Proofs.Model.History

/-!
Problems without memory. Whatever was calculated before, also where it failed half way, a fit
answers as it would have answered at first: nothing is changed but the parameters, and they are
written before anything is read.
-/

namespace FormulaCalculus

namespace Stateful

variable {σ α β γ : Type}

/-- Whether a calculation does not tell apart the states of a class, and stays in their class. -/
structure Forgets (r : σ → σ → Prop) (x : Stateful σ α β) : Prop where
  answer : ∀ s s', r s s' → answer x s = answer x s'
  keeps : ∀ s, r s (leaves x s)

namespace Forgets

variable {r : σ → σ → Prop} {x : Stateful σ α β} {f : β → Stateful σ α γ}

theorem pure (hr : Equivalence r) (b : β) : Forgets r (pure b : Stateful σ α β) where
  answer _ _ _ := rfl
  keeps s := hr.refl s

theorem throw (hr : Equivalence r) (e : Error α) : Forgets r (throw e : Stateful σ α β) where
  answer _ _ _ := rfl
  keeps s := hr.refl s

/-- Calculations that forget can be carried out one after the other: the first one leaves states of
one class again. -/
theorem bind (hr : Equivalence r) (hx : Forgets r x) (hf : ∀ b, Forgets r (f b)) :
    Forgets r (x >>= f) where
  answer s s' hs := by
    have hsame := hx.answer s s' hs
    cases hanswer : Stateful.answer x s' with
    | error e =>
      rw [(bind_of_error hanswer f).1, (bind_of_error (hsame.trans hanswer) f).1]
    | ok b =>
      rw [(bind_of_ok hanswer f).1, (bind_of_ok (hsame.trans hanswer) f).1]
      apply (hf b).answer
      have hback := hr.symm (hx.keeps s)
      exact hr.trans hback (hr.trans hs (hx.keeps s'))
  keeps s := by
    cases hanswer : Stateful.answer x s with
    | error e =>
      rw [(bind_of_error hanswer f).2]
      exact hx.keeps s
    | ok b =>
      rw [(bind_of_ok hanswer f).2]
      exact hr.trans (hx.keeps s) ((hf b).keeps _)

theorem mapM (hr : Equivalence r) {g : γ → Stateful σ α β} (hg : ∀ c, Forgets r (g c))
    (l : List γ) : Forgets r (l.mapM g) := by
  induction l with
  | nil => exact pure hr []
  | cons c l ih =>
    rw [List.mapM_cons]
    exact bind hr (hg c) fun b => bind hr ih fun bs => pure hr (b :: bs)

end Forgets

end Stateful

open Stateful (Forgets answer leaves)

/-! ### Problems -/

namespace Problem

/-- A call of a problem. -/
inductive Call (α : Type) where
  | eval (params : List α)
  | jacobian (params : List α)
  | cost (params : List α)
  | differenceJacobian (eps : α) (params : List α)
  | differenceHessian (eps : α) (params : List α)

variable {σ α : Type}

/-- What a call is answered with, if it does not fail. -/
def Call.Result : Call α → Type
  | eval _ => List α
  | jacobian _ | differenceJacobian _ _ => Matrix α
  | cost _ => α
  | differenceHessian _ _ => Cube α

variable [Scalar α]

def call (p : Problem σ α) : (c : Call α) → Stateful σ α c.Result
  | .eval params => p.eval params
  | .jacobian params => p.jacobian params
  | .cost params => p.cost params
  | .differenceJacobian eps params => p.differenceJacobian eps params
  | .differenceHessian eps params => p.differenceHessian eps params

/-- The state after calls, whatever they were answered. -/
def stateAfter (p : Problem σ α) (s : σ) (calls : List (Call α)) : σ :=
  calls.foldl (fun s c => leaves (p.call c) s) s

omit [Scalar α] in
/-- Whether what a problem brings of its own forgets the state within its class. -/
structure Forgetful (r : σ → σ → Prop) (p : Problem σ α) : Prop where
  equivalence : Equivalence r
  eval : ∀ params, Forgets r (p.eval params)
  customJacobian : ∀ f, p.customJacobian = some f → ∀ params, Forgets r (f params)

namespace Forgetful

variable {r : σ → σ → Prop} {p : Problem σ α}

omit [Scalar α] in
theorem residualColumn (h : Forgetful r p) (params : List α) :
    Forgets r (p.residualColumn params) := by
  refine .bind h.equivalence (h.eval params) fun residuals => ?_
  split
  · exact .pure h.equivalence _
  · exact .throw h.equivalence _

theorem differenceColumn (h : Forgetful r p) (params : List α) (eps : α) (j : Nat) (x : α) :
    Forgets r (p.differenceColumn params eps j x) := by
  refine .bind h.equivalence (h.residualColumn _) fun forward => ?_
  refine .bind h.equivalence (h.residualColumn _) fun backward => ?_
  exact .pure h.equivalence _

theorem differenceJacobian (h : Forgetful r p) (eps : α) (params : List α) :
    Forgets r (p.differenceJacobian eps params) := by
  refine .bind h.equivalence ?_ fun columns => .pure h.equivalence _
  exact .mapM h.equivalence (fun (x, j) => h.differenceColumn params eps j x) _

theorem diagonalColumn (h : Forgetful r p) (center : Column α p.residualCount) (params : List α)
    (i : Nat) (step : α) : Forgets r (p.diagonalColumn center params i step) := by
  refine .bind h.equivalence (h.residualColumn _) fun plus => ?_
  refine .bind h.equivalence (h.residualColumn _) fun minus => ?_
  exact .pure h.equivalence _

theorem mixedColumn (h : Forgetful r p) (params : List α) (i j : Nat) (x y : α) :
    Forgets r (p.mixedColumn params i j x y) := by
  refine .bind h.equivalence (h.residualColumn _) fun plusPlus => ?_
  refine .bind h.equivalence (h.residualColumn _) fun plusMinus => ?_
  refine .bind h.equivalence (h.residualColumn _) fun minusPlus => ?_
  refine .bind h.equivalence (h.residualColumn _) fun minusMinus => ?_
  exact .pure h.equivalence _

theorem differenceHessian (h : Forgetful r p) (eps : α) (params : List α) :
    Forgets r (p.differenceHessian eps params) := by
  refine .bind h.equivalence (h.residualColumn params) fun center => ?_
  refine .bind h.equivalence (.mapM h.equivalence ?_ _) fun triangle => .pure h.equivalence _
  rintro ⟨⟨i, x⟩, j, y⟩
  dsimp only
  split
  · exact .bind h.equivalence (h.diagonalColumn center params i _) fun column =>
      .pure h.equivalence _
  · exact .bind h.equivalence (h.mixedColumn params i j _ _) fun column => .pure h.equivalence _

theorem jacobian (h : Forgetful r p) (params : List α) : Forgets r (p.jacobian params) := by
  unfold Problem.jacobian
  split
  · rename_i f hf
    exact h.customJacobian f hf params
  · exact h.differenceJacobian _ params

theorem cost (h : Forgetful r p) (params : List α) : Forgets r (p.cost params) :=
  .bind h.equivalence (h.eval params) fun _ => .pure h.equivalence _

theorem call (h : Forgetful r p) (c : Call α) : Forgets r (p.call c) := by
  cases c with
  | eval params => exact h.eval params
  | jacobian params => exact h.jacobian params
  | cost params => exact h.cost params
  | differenceJacobian eps params => exact h.differenceJacobian eps params
  | differenceHessian eps params => exact h.differenceHessian eps params

/-- Calls never leave the class of the state. -/
theorem stateAfter (h : Forgetful r p) (s : σ) (calls : List (Call α)) :
    r s (p.stateAfter s calls) := by
  induction calls generalizing s with
  | nil => exact h.equivalence.refl s
  | cons c calls ih => exact h.equivalence.trans ((h.call c).keeps s) (ih _)

end Forgetful

end Problem

/-! ### Fits -/

/-- Whether two stores differ at most in the given names. -/
def Store.SameOutside {α : Type} (names : List String) (s s' : Store α) : Prop :=
  ∀ n, n ∉ names → s.get? n = s'.get? n

theorem Store.equivalence_sameOutside {α : Type} (names : List String) :
    Equivalence (Store.SameOutside (α := α) names) where
  refl _ _ _ := rfl
  symm h n hn := (h n hn).symm
  trans h h' n hn := (h n hn).trans (h' n hn)

namespace Fit

variable {α β : Type} [Scalar α] {m : Model α} {g : Store α → Except (Error α) β}
  {params : List α} {s s' : Store α}

omit [Scalar α] in
/-- What is read behind the parameters is read off the store that they are written to. -/
theorem reading_written (hparams : params.length = m.parameterCount)
    (g : Store α → Except (Error α) β) (s : Store α) :
    answer (m.setParameterValues params >>= fun _ => Stateful.reading g) s =
        g (leaves (m.setParameterValues params) s) ∧
      leaves (m.setParameterValues params >>= fun _ => Stateful.reading g) s =
        leaves (m.setParameterValues params) s := by
  obtain ⟨hanswer, hleaves⟩ := Stateful.bind_of_ok
    (Model.setParameterValues_of_length hparams s).1 fun _ => Stateful.reading g
  rw [hanswer, hleaves]
  exact Stateful.reading_eq g _

omit [Scalar α] in
/-- Nothing is read behind parameters that are refused. -/
theorem reading_refused (hparams : params.length ≠ m.parameterCount)
    (g : Store α → Except (Error α) β) (s : Store α) :
    answer (m.setParameterValues params >>= fun _ => Stateful.reading g) s =
        .error (.dimensionMismatch (.parameterValues m.parameterCount params.length)) ∧
      leaves (m.setParameterValues params >>= fun _ => Stateful.reading g) s = s := by
  have hrefused := Model.setParameterValues_eq_error_iff (s := s).mpr ⟨hparams, rfl⟩
  obtain ⟨hanswer, hleaves⟩ := Stateful.bind_of_error hrefused fun _ => Stateful.reading g
  exact ⟨hanswer, hleaves.trans (Model.atomic_setParameterValues params s _ hrefused)⟩

omit [Scalar α] in
/-- Stores that differ at most in the parameters are the same once the parameters are written. -/
theorem get?_setParameterValues_congr (hparams : params.length = m.parameterCount)
    (hs : Store.SameOutside m.spec.parameters s s') (n : String) :
    (leaves (m.setParameterValues params) s).get? n =
      (leaves (m.setParameterValues params) s').get? n := by
  have hnames : (m.spec.parameters.zip params).map Prod.fst = m.spec.parameters :=
    List.map_fst_zip (Nat.le_of_eq hparams.symm)
  rw [(Model.setParameterValues_of_length hparams s).2,
    (Model.setParameterValues_of_length hparams s').2]
  apply Store.get?_foldl_set_congr
  rw [hnames]
  by_cases hn : n ∈ m.spec.parameters
  · exact Or.inl hn
  · exact Or.inr (hs n hn)

omit [Scalar α] in
/-- What is read behind the parameters does not depend on those that stood there before. -/
theorem forgets_reading (hg : ∀ s s', (∀ n, s.get? n = s'.get? n) → g s = g s')
    (params : List α) :
    Forgets (Store.SameOutside m.spec.parameters)
      (m.setParameterValues params >>= fun _ => Stateful.reading g) := by
  by_cases hparams : params.length = m.parameterCount
  · constructor
    · intro s s' hs
      rw [(reading_written hparams g s).1, (reading_written hparams g s').1]
      exact hg _ _ (get?_setParameterValues_congr hparams hs)
    · intro s
      rw [(reading_written hparams g s).2]
      exact fun n hn => ((Model.get?_setParameterValues hparams s).1 n hn).symm
  · -- nothing is written, and the error does not tell what is in the store
    constructor
    · intro s s' hs
      rw [(reading_refused hparams g s).1, (reading_refused hparams g s').1]
    · intro s
      rw [(reading_refused hparams g s).2]
      exact (Store.equivalence_sameOutside _).refl s

theorem forgetful_toProblem (f : Fit α) :
    f.toProblem.Forgetful (Store.SameOutside f.model.spec.parameters) where
  equivalence := Store.equivalence_sameOutside _
  eval params := by
    apply forgets_reading
    intro s s' hs
    exact (Model.sameReads_of_get? hs).residuals f.data
  customJacobian g hg params := by
    obtain rfl := Option.some.inj hg
    apply forgets_reading
    intro s s' hs
    exact (Model.sameReads_of_get? hs).jacobian

/-- A call of a fit is answered behind any other calls as it is answered first. -/
theorem answer_call_stateAfter (f : Fit α) (s : Store α) (calls : List (Problem.Call α))
    (c : Problem.Call α) :
    answer (f.toProblem.call c) (f.toProblem.stateAfter s calls) =
      answer (f.toProblem.call c) s := by
  have hforgetful := forgetful_toProblem f
  have hclass := hforgetful.stateAfter s calls
  exact ((hforgetful.call c).answer s _ hclass).symm

end Fit

end FormulaCalculus
