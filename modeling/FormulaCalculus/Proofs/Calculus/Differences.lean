import Mathlib

/-!
Central differences of polynomials. What a difference leaves out of a Taylor expansion has more
factors than a polynomial of low degree has, so there the difference is a multiple of the
derivative, however far the steps go.
-/

namespace FormulaCalculus

namespace CentralDifference

open MvPolynomial

variable {ι R : Type} [CommRing R] {n : Nat} {f : MvPolynomial ι R}

/-! ### Products of few factors -/

/-- A variable, or one. -/
noncomputable def factor : Option ι → MvPolynomial ι R
  | none => 1
  | some a => X a

/-- A product of variables is one of a given number of factors, if that is not too small. -/
theorem exists_factors {s : Multiset ι} (hs : s.card ≤ n) :
    ∃ t : Multiset (Option ι), t.card = n ∧ (t.map factor).prod = (s.map (X (R := R))).prod := by
  refine ⟨s.map some + Multiset.replicate (n - s.card) none, ?_, ?_⟩
  · rw [Multiset.card_add, Multiset.card_map, Multiset.card_replicate]
    exact Nat.add_sub_of_le hs
  · have hones (k : Nat) :
        ((Multiset.replicate k none).map (factor (ι := ι) (R := R))).prod = 1 := by
      rw [Multiset.map_replicate, Multiset.prod_replicate]
      exact one_pow _
    rw [Multiset.map_add, Multiset.prod_add, Multiset.map_map, hones, mul_one]
    rfl

/-- What is linear in a polynomial is known from the products of as many factors as its degree. -/
theorem eq_of_products {φ ψ : MvPolynomial ι R →ₗ[R] R}
    (hprod : ∀ t : Multiset (Option ι), t.card = n → φ (t.map factor).prod = ψ (t.map factor).prod)
    (hf : f.totalDegree ≤ n) : φ f = ψ f := by
  -- each monomial is a multiple of a product of variables, and missing factors are made up by ones
  rw [f.as_sum, map_sum, map_sum]
  refine Finset.sum_congr rfl fun m hm => ?_
  have hcard : (Finsupp.toMultiset m).card ≤ n := by
    rw [Finsupp.card_toMultiset]
    exact (le_totalDegree hm).trans hf
  obtain ⟨t, ht, hfactors⟩ := exists_factors (R := R) hcard
  have hagree := hprod t ht
  rw [hfactors, Finsupp.toMultiset_map, Finsupp.prod_toMultiset,
    Finsupp.prod_mapDomain_index (fun _ => pow_zero _) fun _ _ _ => pow_add _ _ _] at hagree
  rw [monomial_eq, ← smul_eq_C_mul, map_smul, map_smul, hagree]

/-! ### Directions -/

/-- The derivative in a direction. -/
noncomputable def along (u : ι → R) : Derivation R (MvPolynomial ι R) (MvPolynomial ι R) :=
  mkDerivation R fun a => C (u a)

theorem along_X (u : ι → R) (a : ι) : along u (X a) = C (u a) := mkDerivation_X ..

@[simp] theorem along_C (u : ι → R) (c : R) : along u (C c) = 0 := derivation_C ..

theorem along_comm (u v : ι → R) (f : MvPolynomial ι R) :
    along u (along v f) = along v (along u f) := by
  have hbracket : ⁅along u, along v⁆ = 0 := by
    apply derivation_ext
    intro a
    rw [Derivation.commutator_apply, along_X, along_X, along_C, along_C, sub_zero]
    rfl
  have happly := DFunLike.congr_fun hbracket f
  rwa [Derivation.commutator_apply, Derivation.zero_apply, sub_eq_zero] at happly

/-- Along an axis it is a multiple of the partial derivative. -/
theorem along_single [DecidableEq ι] (j : ι) (h : R) : along (Pi.single j h) = h • pderiv j := by
  apply derivation_ext
  intro a
  rw [along_X, Derivation.smul_apply, pderiv_X]
  by_cases ha : a = j
  · subst ha
    simp [smul_eq_C_mul]
  · simp [ha]

theorem pderiv_comm [DecidableEq ι] (i j : ι) (f : MvPolynomial ι R) :
    pderiv i (pderiv j f) = pderiv j (pderiv i f) := by
  have hpartial (k : ι) : pderiv (R := R) k = along (Pi.single k 1) := by
    rw [along_single, one_smul]
  rw [hpartial i, hpartial j, along_comm]

/-- By how much a factor grows in a direction. -/
def growth (u : ι → R) : Option ι → R
  | none => 0
  | some a => u a

variable (x u v : ι → R) (o : Option ι)

@[simp] theorem along_factor : along u (factor o) = C (growth u o) := by
  cases o with
  | none => simp [factor, growth]
  | some a => exact along_X u a

@[simp] theorem eval_add_factor : eval (x + u) (factor o) = eval x (factor o) + growth u o := by
  cases o with
  | none => simp [factor, growth]
  | some a => simp [factor, growth]

@[simp] theorem eval_sub_factor : eval (x - u) (factor o) = eval x (factor o) - growth u o := by
  cases o with
  | none => simp [factor, growth]
  | some a => simp [factor, growth]

/-! ### Differences -/

/-- The value at a point, as a linear function of the polynomial. -/
noncomputable def value : MvPolynomial ι R →ₗ[R] R := (aeval x).toLinearMap

@[simp] theorem value_apply (f : MvPolynomial ι R) : value x f = eval x f := by
  rw [value, AlgHom.toLinearMap_apply, aeval_eq_eval]

theorem first_difference (hf : f.totalDegree ≤ 2) :
    eval (x + u) f - eval (x - u) f = 2 * eval x (along u f) := by
  let φ := value (x + u) - value (x - u)
  let ψ := (2 : R) • value x ∘ₗ (along u).toLinearMap
  have hprod (t : Multiset (Option ι)) (ht : t.card = 2) :
      φ (t.map factor).prod = ψ (t.map factor).prod := by
    obtain ⟨a, b, rfl⟩ := Multiset.card_eq_two.mp ht
    simp [φ, ψ, Derivation.leibniz]
    ring
  simpa [φ, ψ] using eq_of_products hprod hf

theorem second_difference (hf : f.totalDegree ≤ 3) :
    eval (x + u) f - 2 * eval x f + eval (x - u) f = eval x (along u (along u f)) := by
  let φ := value (x + u) - (2 : R) • value x + value (x - u)
  let ψ := value x ∘ₗ (along u).toLinearMap ∘ₗ (along u).toLinearMap
  have hprod (t : Multiset (Option ι)) (ht : t.card = 3) :
      φ (t.map factor).prod = ψ (t.map factor).prod := by
    obtain ⟨a, b, c, rfl⟩ := Multiset.card_eq_three.mp ht
    simp [φ, ψ, Derivation.leibniz]
    ring
  simpa [φ, ψ] using eq_of_products hprod hf

theorem mixed_difference (hf : f.totalDegree ≤ 3) :
    eval (x + u + v) f - eval (x + u - v) f - eval (x - u + v) f + eval (x - u - v) f =
      4 * eval x (along u (along v f)) := by
  let φ := value (x + u + v) - value (x + u - v) - value (x - u + v) + value (x - u - v)
  let ψ := (4 : R) • value x ∘ₗ (along u).toLinearMap ∘ₗ (along v).toLinearMap
  have hprod (t : Multiset (Option ι)) (ht : t.card = 3) :
      φ (t.map factor).prod = ψ (t.map factor).prod := by
    obtain ⟨a, b, c, rfl⟩ := Multiset.card_eq_three.mp ht
    simp [φ, ψ, Derivation.leibniz]
    ring
  simpa [φ, ψ] using eq_of_products hprod hf

end CentralDifference

end FormulaCalculus
