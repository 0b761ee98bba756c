import Mathlib.Tactic.Linarith
import Mathlib.Tactic.Ring
import FormulaCalculus.Model.Basic

/-!
Pairs of parameters by rows. The rows of a triangle shrink by one pair each, and a pair's position
among all rows is given by one formula: the second derivatives of a model are laid out row by row
and found again by that formula.
-/

namespace FormulaCalculus

theorem ModelSpec.pairCount_succ (n : Nat) : pairCount (n + 1) = n + 1 + pairCount n := by
  have hpairs : (n + 1) * (n + 1 + 1) = n * (n + 1) + (n + 1) * 2 := by ring
  rw [pairCount, hpairs, Nat.add_mul_div_right _ _ Nat.two_pos, Nat.add_comm]
  rfl

theorem triangleIndex_comm (i j n : Nat) : triangleIndex i j n = triangleIndex j i n := by
  rw [triangleIndex, triangleIndex, Nat.min_comm, Nat.max_comm]

/-- What the rows above one leave out is no more than what the full rows would hold. -/
theorem triangle_le {i n : Nat} (h : i ≤ n) : i * (i + 1) / 2 ≤ i * n := by
  rcases Nat.eq_zero_or_pos i with rfl | hi
  · exact Nat.zero_le _
  · have hsquare : i * (i + 1) ≤ i * n * 2 := by nlinarith
    omega

theorem triangleIndex_zero (j n : Nat) : triangleIndex 0 j n = j := by
  simp [triangleIndex]

/-- Behind the first row the pairs are those of one parameter less. -/
theorem triangleIndex_succ {i j n : Nat} (hij : i ≤ j) (hj : j < n) :
    triangleIndex (i + 1) (j + 1) (n + 1) = n + 1 + triangleIndex i j n := by
  have hle : i * (i + 1) / 2 ≤ i * n := triangle_le (by omega)
  have hrow : (i + 1) * (i + 1 + 1) / 2 = i * (i + 1) / 2 + (i + 1) := by
    have hpairs : (i + 1) * (i + 1 + 1) = i * (i + 1) + (i + 1) * 2 := by ring
    rw [hpairs, Nat.add_mul_div_right _ _ Nat.two_pos]
  have hfull : (i + 1) * (n + 1) = i * n + i + n + 1 := by ring
  simp only [triangleIndex, Nat.min_eq_left hij, Nat.max_eq_right hij,
    Nat.min_eq_left (Nat.succ_le_succ hij), Nat.max_eq_right (Nat.succ_le_succ hij), hrow, hfull]
  omega

theorem triangleIndex_lt {i j n : Nat} (hij : i ≤ j) (hj : j < n) :
    triangleIndex i j n < ModelSpec.pairCount n := by
  induction i generalizing j n with
  | zero =>
    obtain ⟨n, rfl⟩ := Nat.exists_eq_succ_of_ne_zero (Nat.ne_zero_of_lt hj)
    rw [triangleIndex_zero, ModelSpec.pairCount_succ]
    omega
  | succ i ih =>
    obtain ⟨j, rfl⟩ := Nat.exists_eq_succ_of_ne_zero (Nat.ne_zero_of_lt hij)
    obtain ⟨n, rfl⟩ := Nat.exists_eq_succ_of_ne_zero (Nat.ne_zero_of_lt hj)
    have hlt := ih (Nat.le_of_succ_le_succ hij) (Nat.lt_of_succ_lt_succ hj)
    rw [triangleIndex_succ (Nat.le_of_succ_le_succ hij) (Nat.lt_of_succ_lt_succ hj),
      ModelSpec.pairCount_succ]
    omega

namespace Model

variable {α : Type}

theorem length_slopesAlongRest {es : List (StoredExpression α)} {names : List String}
    (h : es.length = names.length) :
    (slopesAlongRest es names).length = ModelSpec.pairCount names.length := by
  induction es generalizing names with
  | nil =>
    obtain rfl := List.length_eq_zero_iff.mp h.symm
    rfl
  | cons e es ih =>
    cases names with
    | nil => nomatch h
    | cons name names =>
      rw [slopesAlongRest, List.length_append, List.length_map, ih (Nat.succ.inj h),
        List.length_cons, ModelSpec.pairCount_succ]

/-- The slope of a derivative along a parameter stands where the formula looks for it. -/
theorem getElem?_slopesAlongRest {es : List (StoredExpression α)} {names : List String}
    {e : StoredExpression α} {name : String} {i j : Nat} (hij : i ≤ j) (he : es[i]? = some e)
    (hname : names[j]? = some name) :
    (slopesAlongRest es names)[triangleIndex i j names.length]? = some (.slope e name) := by
  -- each row drops the first derivative and the first parameter together
  induction i generalizing es names j with
  | zero =>
    cases es with
    | nil => nomatch he
    | cons e' es =>
      obtain rfl : e' = e := Option.some.inj he
      cases names with
      | nil => nomatch hname
      | cons first names =>
        have hrow : ((first :: names).map (Quantity.slope e'))[j]? = some (.slope e' name) := by
          rw [List.getElem?_map, hname]
          rfl
        have hj : j < ((first :: names).map (Quantity.slope e')).length :=
          (List.getElem?_eq_some_iff.mp hrow).1
        rw [triangleIndex_zero, slopesAlongRest, List.getElem?_append_left hj, hrow]
  | succ i ih =>
    cases es with
    | nil => nomatch he
    | cons e' es =>
      cases names with
      | nil => nomatch hname
      | cons first names =>
        obtain ⟨j, rfl⟩ := Nat.exists_eq_succ_of_ne_zero (Nat.ne_zero_of_lt hij)
        have hij' := Nat.le_of_succ_le_succ hij
        have hj : j < names.length :=
          Nat.lt_of_succ_lt_succ (List.getElem?_eq_some_iff.mp hname).1
        have hlength : ((first :: names).map (Quantity.slope e')).length = names.length + 1 :=
          List.length_map _
        rw [List.length_cons, triangleIndex_succ hij' hj, slopesAlongRest,
          List.getElem?_append_right (by rw [hlength]; omega), hlength, Nat.add_sub_cancel_left]
        exact ih hij' he hname

theorem mem_upperPairs {i j n : Nat} : (i, j) ∈ upperPairs n ↔ i ≤ j ∧ j < n := by
  simp only [upperPairs, List.mem_flatMap, List.mem_range, List.mem_map, Prod.mk.injEq]
  constructor
  · rintro ⟨k, hk, d, hd, rfl, rfl⟩
    omega
  · rintro ⟨hij, hj⟩
    exact ⟨i, by omega, j - i, by omega, rfl, by omega⟩

end Model

end FormulaCalculus
