import FormulaCalculus.Proofs.Calculus.Differences
import FormulaCalculus.Proofs.LeastSquares.Sweep
import FormulaCalculus.Proofs.Model.Assembly
import FormulaCalculus.Proofs.Scalar.Rational

/-!
Finite differences of polynomial residuals. Over exact numbers nothing is lost but what the
differences leave out of a Taylor expansion, and that vanishes up to the second degree for a
Jacobian and up to the third for a Hessian.
-/

namespace FormulaCalculus

open Stateful (answer leaves)
open CentralDifference
  (along_single first_difference mixed_difference pderiv_comm second_difference)
open MvPolynomial (pderiv)

/-! ### Answers that do not depend on the state -/

namespace Stateful

variable {σ α β γ : Type} {x : Stateful σ α β} {b : β}

/-- Whether a calculation has an answer, the same one in any state. -/
def Returns (x : Stateful σ α β) (b : β) : Prop := ∀ s, answer x s = .ok b

namespace Returns

theorem pure (b : β) : Returns (pure b : Stateful σ α β) b := fun _ => rfl

theorem bind {f : β → Stateful σ α γ} {c : γ} (hx : Returns x b) (hf : Returns (f b) c) :
    Returns (x >>= f) c := by
  intro s
  rw [(bind_of_ok (hx s) f).1]
  exact hf _

theorem map (hx : Returns x b) (g : β → γ) : Returns (x >>= fun b => Pure.pure (g b)) (g b) :=
  hx.bind (pure _)

theorem mapM {ι : Type} {g : γ → Stateful σ α β} {c : ι → γ} {r : ι → β} (l : List ι)
    (hg : ∀ i, Returns (g (c i)) (r i)) : Returns ((l.map c).mapM g) (l.map r) := by
  induction l with
  | nil => exact pure []
  | cons i l ih =>
    rw [List.map_cons, List.mapM_cons]
    exact (hg i).bind (ih.map fun bs => r i :: bs)

end Returns

end Stateful

open Stateful (Returns)

/-! ### Numbers -/

namespace Rational

variable {n : Nat} (x y : Fin n → ℚ)

def vector : List Rational := List.ofFn fun i => number (x i)

@[simp] theorem length_vector : (vector x).length = n := List.length_ofFn

def column : Column Rational n := ⟨vector x, length_vector x⟩

theorem map_column {g : Rational → Rational} {k : ℚ → ℚ} (hg : ∀ a, g (number a) = number (k a)) :
    (column x).map g = column fun i => k (x i) := by
  simp only [Column.map, column, vector, List.map_ofFn, Function.comp_def, hg]

theorem zipWith_column {g : Rational → Rational → Rational} {k : ℚ → ℚ → ℚ}
    (hg : ∀ a b, g (number a) (number b) = number (k a b)) :
    (column x).zipWith g (column y) = column fun i => k (x i) (y i) := by
  simp only [Column.zipWith, column, vector]
  congr
  apply List.ext_getElem
  · simp
  · intro i hi hi'
    simp [hg]

/-- A multiple of numbers is divided back. -/
theorem map_div_column {c : ℚ} (hc : c ≠ 0) (h : ∀ i, x i = c * y i) :
    (column x).map (fun a => a / number c) = column y := by
  rw [map_column x fun a => div_eq a hc]
  congr
  funext i
  rw [h i, mul_div_cancel_left₀ _ hc]

theorem two_eq : (Scalar.two : Rational) = number 2 := by
  rw [Scalar.two, one_eq, add_eq, one_add_one_eq_two]

theorem four_eq : (Scalar.four : Rational) = number 4 := by
  rw [Scalar.four, two_eq, add_eq, two_add_two_eq_four]

/-- One number is moved. -/
theorem modify_vector (j : Fin n) {d : ℚ} {move : Rational → Rational}
    (hmove : ∀ a, move (number a) = number (a + d)) :
    (vector x).modify j move = vector (x + Pi.single j d) := by
  apply List.ext_getElem
  · simp
  · intro i hi hi'
    rw [List.getElem_modify]
    simp only [vector, List.getElem_ofFn, Pi.add_apply]
    split_ifs with hij
    · subst hij
      rw [hmove, Pi.single_eq_same]
    · have hne : (⟨i, by simpa using hi'⟩ : Fin n) ≠ j := fun h => hij (congrArg Fin.val h).symm
      rw [Pi.single_eq_of_ne hne, add_zero]

theorem zipIdx_vector :
    (vector x).zipIdx = (List.finRange n).map fun j => (number (x j), j.val) := by
  apply List.ext_getElem
  · simp
  · intro i hi hi'
    simp [vector]

end Rational

open Rational (vector column number)

/-! ### Cubes of symmetric triangles -/

namespace Cube

variable {α : Type} {m n : Nat} {c : Fin n → Fin n → Column α m} {pairs : List (Fin n × Fin n)}

/-- A pair is found either way round. -/
theorem lookup_map (hc : ∀ i j, c i j = c j i) {i j : Fin n}
    (h : (i, j) ∈ pairs ∨ (j, i) ∈ pairs) :
    lookup (pairs.map fun ij => ((ij.1.val, ij.2.val), c ij.1 ij.2)) i j = some (c i j) := by
  have hmem : ∃ e ∈ pairs.map fun ij => ((ij.1.val, ij.2.val), c ij.1 ij.2),
      e.1 = (i.val, j.val) ∨ e.1 = (j.val, i.val) := by
    rcases h with h | h
    · exact ⟨_, List.mem_map_of_mem h, Or.inl rfl⟩
    · exact ⟨_, List.mem_map_of_mem h, Or.inr rfl⟩
  obtain ⟨e, he, hpair, hlookup⟩ := exists_lookup_either hmem
  obtain ⟨⟨a, b⟩, -, rfl⟩ := List.mem_map.mp he
  rw [hlookup]
  simp only [Prod.mk.injEq, Fin.val_inj] at hpair
  rcases hpair with ⟨rfl, rfl⟩ | ⟨rfl, rfl⟩
  · rfl
  · exact congrArg some (hc a b)

/-- A symmetric triangle that leaves out no pair fills the cube. -/
theorem ofTriangle_map (hc : ∀ i j, c i j = c j i)
    (hpairs : ∀ i j, (i, j) ∈ pairs ∨ (j, i) ∈ pairs) (y : α) :
    ofTriangle n m y (pairs.map fun ij => ((ij.1.val, ij.2.val), c ij.1 ij.2)) =
      ⟨m, (List.finRange n).map fun i => (List.finRange n).map fun j => c i j⟩ := by
  simp only [ofTriangle, ← List.map_coe_finRange_eq_range, List.map_map, Function.comp_def,
    lookup_map hc (hpairs _ _), Option.getD_some]

end Cube

/-! ### Tables of derivatives -/

section

variable {m n : Nat} (f : Fin m → MvPolynomial (Fin n) ℚ) (x : Fin n → ℚ)

/-- The first partial derivatives, a column for each parameter. -/
noncomputable def firstPartials : Matrix Rational where
  rowCount := m
  columns := (List.finRange n).map fun j => column fun r => MvPolynomial.eval x (pderiv j (f r))

theorem rows_firstPartials :
    (firstPartials f x).rows = (List.finRange m).map fun r => (List.finRange n).map fun j =>
      number (MvPolynomial.eval x (pderiv j (f r))) := by
  simp [Matrix.rows, firstPartials, Column.get, column, vector]

/-- The second partial derivatives, a column for each pair of parameters. -/
noncomputable def secondPartials : Cube Rational where
  pointCount := m
  columns := (List.finRange n).map fun i => (List.finRange n).map fun j =>
    column fun r => MvPolynomial.eval x (pderiv i (pderiv j (f r)))

/-- Every entry is filled. -/
theorem entryAt_secondPartials (r : Fin m) (i j : Fin n) :
    (secondPartials f x).entryAt r i j =
      some (number (MvPolynomial.eval x (pderiv i (pderiv j (f r))))) := by
  let c (i j : Fin n) := column fun r => MvPolynomial.eval x (pderiv i (pderiv j (f r)))
  let row (i : Fin n) := (List.finRange n).map (c i)
  have hrow : ((List.finRange n).map row)[i.val]? = some (row i) := by
    simp
  have hcolumn : (row i)[j.val]? = some (c i j) := by
    simp [row]
  rw [Cube.entryAt_eq (c := secondPartials f x) hrow hcolumn]
  simp [c, column, vector]

end

namespace Problem

/-! ### Steps and points -/

section

variable {n : Nat}

/-- The step for a parameter. -/
def stepOf (x e : ℚ) : ℚ := if 1 < |x| then |x| * e else e

theorem stepFor_number (x e : ℚ) : stepFor (number x) (number e) = number (stepOf x e) := by
  unfold stepFor stepOf
  by_cases h : 1 < |x|
  · rw [if_pos h]
    exact if_pos (decide_eq_true h)
  · rw [if_neg h]
    exact if_neg fun htest => h (of_decide_eq_true htest)

theorem stepOf_ne_zero {x e : ℚ} (he : e ≠ 0) : stepOf x e ≠ 0 := by
  unfold stepOf
  split_ifs with hx
  · have hpos : 0 < |x| := one_pos.trans hx
    exact mul_ne_zero hpos.ne' he
  · exact he

theorem shift_vector (x : Fin n → ℚ) (i : Fin n) (h : ℚ) :
    shift (vector x) [(i, number h)] = vector (x + Pi.single i h) :=
  Rational.modify_vector x i fun _ => rfl

theorem shift_vector_pair (x : Fin n → ℚ) (i j : Fin n) (h k : ℚ) :
    shift (vector x) [(i, number h), (j, number k)] =
      vector (x + Pi.single i h + Pi.single j k) := by
  rw [← shift_vector, ← shift_vector]
  rfl

/-- The pairs of the lower triangle, by rows. -/
def lowerIndices (n : Nat) : List (Fin n × Fin n) :=
  (List.finRange n).flatMap fun i => ((List.finRange n).take (i.val + 1)).map fun j => (i, j)

theorem mem_lowerIndices {i j : Fin n} : (i, j) ∈ lowerIndices n ↔ j ≤ i := by
  have htake : j ∈ (List.finRange n).take (i.val + 1) ↔ j ≤ i := by
    rw [List.mem_take_iff_getElem]
    constructor
    · rintro ⟨k, hk, rfl⟩
      simp only [List.length_finRange] at hk
      simp only [List.getElem_finRange, Fin.le_def, Fin.val_cast]
      omega
    · intro h
      refine ⟨j, ?_, by simp⟩
      rw [List.length_finRange]
      omega
  simp only [lowerIndices, List.mem_flatMap, List.mem_map, List.mem_finRange, true_and,
    Prod.mk.injEq]
  constructor
  · rintro ⟨_, _, hj, rfl, rfl⟩
    exact htake.mp hj
  · intro h
    exact ⟨i, j, htake.mpr h, rfl, rfl⟩

theorem lowerPairs_vector (x : Fin n → ℚ) :
    lowerPairs (vector x) =
      (lowerIndices n).map fun (i, j) => ((i.val, number (x i)), (j.val, number (x j))) := by
  simp only [lowerPairs, lowerIndices, Rational.zipIdx_vector, List.flatMap_map, List.map_flatMap,
    List.map_map, ← List.map_take, Function.comp_def]

end

/-! ### Polynomial problems -/

section

variable {σ : Type} {n : Nat} {p : Problem σ Rational}
  {f : Fin p.residualCount → MvPolynomial (Fin n) ℚ} (x : Fin n → ℚ) {e : ℚ}

/-- Whether the residuals are the values of polynomials, in whatever state they are evaluated. -/
def IsPolynomial (p : Problem σ Rational) (f : Fin p.residualCount → MvPolynomial (Fin n) ℚ) :
    Prop :=
  ∀ x, Returns (p.eval (vector x)) (vector fun r => MvPolynomial.eval x (f r))

namespace IsPolynomial

theorem residualColumn (hp : p.IsPolynomial f) :
    Returns (p.residualColumn (vector x)) (column fun r => MvPolynomial.eval x (f r)) := by
  refine (hp x).bind ?_
  rw [dif_pos (Rational.length_vector _)]
  exact .pure _

theorem shifted (hp : p.IsPolynomial f) (i : Fin n) (h : ℚ) :
    Returns (p.residualColumn (shift (vector x) [(i, number h)]))
      (column fun r => MvPolynomial.eval (x + Pi.single i h) (f r)) := by
  rw [shift_vector]
  exact hp.residualColumn _

theorem shiftedTwice (hp : p.IsPolynomial f) (i j : Fin n) (h k : ℚ) :
    Returns (p.residualColumn (shift (vector x) [(i, number h), (j, number k)]))
      (column fun r => MvPolynomial.eval (x + Pi.single i h + Pi.single j k) (f r)) := by
  rw [shift_vector_pair]
  exact hp.residualColumn _

theorem differenceColumn (hp : p.IsPolynomial f) (hf : ∀ r, (f r).totalDegree ≤ 2) (he : e ≠ 0)
    (j : Fin n) :
    Returns (p.differenceColumn (vector x) (number e) j (number (x j)))
      (column fun r => MvPolynomial.eval x (pderiv j (f r))) := by
  let h := stepOf (x j) e
  have hstep : 2 * h ≠ 0 := mul_ne_zero two_ne_zero (stepOf_ne_zero he)
  have hforward := hp.shifted x j h
  have hbackward : Returns (p.residualColumn ((vector x).modify j fun y => y - number h))
      (column fun r => MvPolynomial.eval (x - Pi.single j h) (f r)) := by
    rw [Rational.modify_vector x j fun a => congrArg number (sub_eq_add_neg a h), Pi.single_neg,
      ← sub_eq_add_neg]
    exact hp.residualColumn _
  have hdifference (r : Fin p.residualCount) :
      MvPolynomial.eval (x + Pi.single j h) (f r) - MvPolynomial.eval (x - Pi.single j h) (f r) =
        2 * h * MvPolynomial.eval x (pderiv j (f r)) := by
    rw [first_difference _ _ (hf r), along_single, Derivation.smul_apply, MvPolynomial.smul_eval,
      mul_assoc]
  rw [Problem.differenceColumn, stepFor_number]
  refine hforward.bind (hbackward.bind ?_)
  rw [Rational.zipWith_column _ _ Rational.sub_eq, Rational.two_eq, Rational.mul_eq,
    Rational.map_div_column _ _ hstep hdifference]
  exact .pure _

theorem diagonalColumn (hp : p.IsPolynomial f) (hf : ∀ r, (f r).totalDegree ≤ 3) (i : Fin n)
    {h : ℚ} (hh : h ≠ 0) :
    Returns (p.diagonalColumn (column fun r => MvPolynomial.eval x (f r)) (vector x) i (number h))
      (column fun r => MvPolynomial.eval x (pderiv i (pderiv i (f r)))) := by
  have hplus := hp.shifted x i h
  have hminus := hp.shifted x i (-h)
  rw [Pi.single_neg, ← sub_eq_add_neg] at hminus
  have hdifference (r : Fin p.residualCount) :
      MvPolynomial.eval (x + Pi.single i h) (f r) - MvPolynomial.eval x (f r) * 2 +
          MvPolynomial.eval (x - Pi.single i h) (f r) =
        h * h * MvPolynomial.eval x (pderiv i (pderiv i (f r))) := by
    rw [mul_comm _ 2, second_difference _ _ (hf r), along_single]
    simp only [Derivation.smul_apply, Derivation.map_smul, MvPolynomial.smul_eval, mul_assoc]
  have htwice (a b : ℚ) : number a - number b * Scalar.two = number (a - b * 2) := by
    rw [Rational.two_eq, Rational.mul_eq, Rational.sub_eq]
  refine hplus.bind (hminus.bind ?_)
  dsimp only
  rw [Rational.zipWith_column _ _ htwice, Rational.zipWith_column _ _ Rational.add_eq,
    Rational.mul_eq, Rational.map_div_column _ _ (mul_ne_zero hh hh) hdifference]
  exact .pure _

theorem mixedColumn (hp : p.IsPolynomial f) (hf : ∀ r, (f r).totalDegree ≤ 3) (i j : Fin n)
    {h k : ℚ} (hh : h ≠ 0) (hk : k ≠ 0) :
    Returns (p.mixedColumn (vector x) i j (number h) (number k))
      (column fun r => MvPolynomial.eval x (pderiv i (pderiv j (f r)))) := by
  have hplusPlus := hp.shiftedTwice x i j h k
  have hplusMinus := hp.shiftedTwice x i j h (-k)
  have hminusPlus := hp.shiftedTwice x i j (-h) k
  have hminusMinus := hp.shiftedTwice x i j (-h) (-k)
  simp only [Pi.single_neg, ← sub_eq_add_neg] at hplusMinus hminusPlus hminusMinus
  have hstep : 4 * h * k ≠ 0 := mul_ne_zero (mul_ne_zero four_ne_zero hh) hk
  have hdifference (r : Fin p.residualCount) :
      MvPolynomial.eval (x + Pi.single i h + Pi.single j k) (f r) -
            MvPolynomial.eval (x + Pi.single i h - Pi.single j k) (f r) -
            MvPolynomial.eval (x - Pi.single i h + Pi.single j k) (f r) +
          MvPolynomial.eval (x - Pi.single i h - Pi.single j k) (f r) =
        4 * h * k * MvPolynomial.eval x (pderiv i (pderiv j (f r))) := by
    rw [mixed_difference _ _ _ (hf r), along_single, along_single]
    simp only [Derivation.smul_apply, Derivation.map_smul, MvPolynomial.smul_eval]
    ring
  refine hplusPlus.bind (hplusMinus.bind (hminusPlus.bind (hminusMinus.bind ?_)))
  dsimp only
  rw [Rational.zipWith_column _ _ Rational.sub_eq, Rational.zipWith_column _ _ Rational.sub_eq,
    Rational.zipWith_column _ _ Rational.add_eq, Rational.four_eq, Rational.mul_eq,
    Rational.mul_eq, Rational.map_div_column _ _ hstep hdifference]
  exact .pure _

theorem differenceJacobian (hp : p.IsPolynomial f) (hf : ∀ r, (f r).totalDegree ≤ 2)
    (he : e ≠ 0) :
    Returns (p.differenceJacobian (number e) (vector x)) (firstPartials f x) := by
  unfold Problem.differenceJacobian
  rw [Rational.zipIdx_vector]
  exact (Returns.mapM _ fun j => hp.differenceColumn x hf he j).map _

theorem differenceHessian (hp : p.IsPolynomial f) (hf : ∀ r, (f r).totalDegree ≤ 3)
    (he : e ≠ 0) :
    Returns (p.differenceHessian (number e) (vector x)) (secondPartials f x) := by
  let c (i j : Fin n) := column fun r => MvPolynomial.eval x (pderiv i (pderiv j (f r)))
  have hcomm (i j : Fin n) : c i j = c j i := by
    simp only [c, pderiv_comm i j]
  have hpairs (i j : Fin n) : (i, j) ∈ lowerIndices n ∨ (j, i) ∈ lowerIndices n := by
    rw [mem_lowerIndices, mem_lowerIndices]
    exact (le_total j i)
  refine (hp.residualColumn x).bind ?_
  rw [lowerPairs_vector]
  refine (Returns.mapM (r := fun ij => ((ij.1.val, ij.2.val), c ij.1 ij.2)) _ ?_).bind ?_
  · rintro ⟨i, j⟩
    dsimp only
    rw [stepFor_number, stepFor_number]
    split
    · rename_i hij
      obtain rfl := Fin.ext hij
      exact (hp.diagonalColumn x hf i (stepOf_ne_zero he)).map _
    · exact (hp.mixedColumn x hf i j (stepOf_ne_zero he) (stepOf_ne_zero he)).map _
  · -- the other half of the cube repeats the triangle, as the derivatives commute
    rw [Rational.length_vector, Cube.ofTriangle_map hcomm hpairs]
    exact .pure _

end IsPolynomial

end

/-- Finite differences of polynomials are their partial derivatives, to the second degree for a
Jacobian and to the third for a Hessian; for any residuals they fail exactly where an evaluation
of the sweep does. -/
theorem differences_exact :
    (∀ {σ : Type} {n : Nat} (p : Problem σ Rational)
      (f : Fin p.residualCount → MvPolynomial (Fin n) ℚ) (x : Fin n → ℚ) (e : ℚ) (s : σ),
      p.IsPolynomial f → e ≠ 0 →
      ((∀ r, (f r).totalDegree ≤ 2) →
        answer (p.differenceJacobian (number e) (vector x)) s = .ok (firstPartials f x) ∧
        (firstPartials f x).rows = (List.finRange p.residualCount).map fun r =>
          (List.finRange n).map fun j => number (MvPolynomial.eval x (pderiv j (f r)))) ∧
      ((∀ r, (f r).totalDegree ≤ 3) →
        answer (p.differenceHessian (number e) (vector x)) s = .ok (secondPartials f x) ∧
        ∀ (r : Fin p.residualCount) (i j : Fin n),
          (secondPartials f x).entryAt r i j =
            some (number (MvPolynomial.eval x (pderiv i (pderiv j (f r))))) ∧
          (secondPartials f x).entryAt r i j = (secondPartials f x).entryAt r j i)) ∧
    ∀ {σ α : Type} [Scalar α] (p : Problem σ α) (eps : α) (params : List α) (s : σ),
      ((∃ e, answer (p.differenceJacobian eps params) s = .error e) ↔
        ∃ before q after, jacobianSweep eps params = before ++ q :: after ∧
          p.Refused (p.stateBehind s before) q) ∧
      ((∃ e, answer (p.differenceHessian eps params) s = .error e) ↔
        ∃ before q after, hessianSweep eps params = before ++ q :: after ∧
          p.Refused (p.stateBehind s before) q) := by
  constructor
  · intro σ n p f x e s hp he
    constructor
    · intro hf
      exact ⟨hp.differenceJacobian x hf he s, rows_firstPartials f x⟩
    · intro hf
      refine ⟨hp.differenceHessian x hf he s, fun r i j => ⟨entryAt_secondPartials f x r i j, ?_⟩⟩
      rw [entryAt_secondPartials, entryAt_secondPartials, pderiv_comm]
  · intro σ α _ p eps params s
    exact ⟨(Sweeps.differenceJacobian eps params).fails_iff,
      (Sweeps.differenceHessian eps params).fails_iff⟩

/-- A problem with two residuals of two parameters. -/
def planar (g : Rational → Rational → List Rational) : Problem Unit Rational where
  eval params := return match params with
    | [x, y] => g x y
    | _ => []
  parameterCount := 2
  residualCount := 2
  customJacobian := none

theorem isPolynomial_planar {g : Rational → Rational → List Rational}
    {f : Fin 2 → MvPolynomial (Fin 2) ℚ}
    (h : ∀ x : Fin 2 → ℚ,
      g (number (x 0)) (number (x 1)) = vector fun r => MvPolynomial.eval x (f r)) :
    (planar g).IsPolynomial f :=
  fun x _ => congrArg Except.ok (h x)

/-- At `x = 2` and `y = 3`, with steps that are as large as the numbers themselves. -/
theorem differences_exact_product :
    let quadratic := planar fun x y => [x * x - Scalar.one, x * y]
    let cubic := planar fun x y => [x * x - Scalar.one, x * (y * y)]
    let short := planar fun x _ => [x]
    let start := [number 2, number 3]
    (∃ J, answer (quadratic.differenceJacobian (number 1) start) () = .ok J ∧
      J.rows = [[number 4, number 0], [number 3, number 2]]) ∧
    (∃ H, answer (cubic.differenceHessian (number 1) start) () = .ok H ∧
      H.entryAt 1 1 1 = some (number 4) ∧ H.entryAt 1 0 1 = some (number 6) ∧
      H.entryAt 1 1 0 = some (number 6)) ∧
    ∃ e, answer (short.differenceJacobian (number 1) start) () = .error e := by
  intro quadratic cubic short start
  let square : MvPolynomial (Fin 2) ℚ := .X 0 * .X 0 - 1
  let f : Fin 2 → MvPolynomial (Fin 2) ℚ := ![square, .X 0 * .X 1]
  let g : Fin 2 → MvPolynomial (Fin 2) ℚ := ![square, .X 0 * (.X 1 * .X 1)]
  have hstart : start = vector ![2, 3] := by
    simp [start, vector]
  have hquadratic : quadratic.IsPolynomial f :=
    isPolynomial_planar fun x => by simp [vector, f, square]
  have hcubic : cubic.IsPolynomial g := isPolynomial_planar fun x => by simp [vector, g, square]
  have hproduct (a b : Fin 2) : (MvPolynomial.X (R := ℚ) a * .X b).totalDegree ≤ 2 :=
    (MvPolynomial.totalDegree_mul _ _).trans (by simp)
  have hsquare : square.totalDegree ≤ 2 :=
    (MvPolynomial.totalDegree_sub _ _).trans (max_le (hproduct 0 0) (by simp))
  have hf (r : Fin 2) : (f r).totalDegree ≤ 2 := by
    fin_cases r
    · exact hsquare
    · exact hproduct 0 1
  have hg (r : Fin 2) : (g r).totalDegree ≤ 3 := by
    fin_cases r
    · exact hsquare.trans (by decide)
    · exact (MvPolynomial.totalDegree_mul _ _).trans (Nat.add_le_add (by simp) (hproduct 1 1))
  obtain ⟨hJ, hrows⟩ :=
    (differences_exact.1 quadratic f ![2, 3] 1 () hquadratic one_ne_zero).1 hf
  obtain ⟨hH, hentries⟩ := (differences_exact.1 cubic g ![2, 3] 1 () hcubic one_ne_zero).2 hg
  rw [hstart]
  refine ⟨⟨_, hJ, hrows.trans ?_⟩, ⟨_, hH, ?_, ?_, ?_⟩, ?_⟩
  · simp [quadratic, planar, List.finRange_succ, f, square, Derivation.leibniz,
      MvPolynomial.pderiv_X, two_add_two_eq_four]
  · refine (hentries (1 : Fin 2) 1 1).1.trans ?_
    norm_num [g, Derivation.leibniz, MvPolynomial.pderiv_X]
  · refine (hentries (1 : Fin 2) 0 1).1.trans ?_
    norm_num [g, Derivation.leibniz, MvPolynomial.pderiv_X]
  · refine (hentries (1 : Fin 2) 1 0).1.trans ?_
    norm_num [g, Derivation.leibniz, MvPolynomial.pderiv_X]
  · rw [(differences_exact.2 short (number 1) (vector ![2, 3]) ()).1]
    exact ⟨[], _, _, rfl, Or.inr ⟨_, rfl, by decide⟩⟩

end Problem

end FormulaCalculus
