import FormulaCalculus.Proofs.Algebra.WellFormed

/-!
Laws of rounded arithmetic for all numbers, infinite ones included. Two numbers are near if they
compare equal or one of them is undefined; sums, differences and products of near numbers are near,
also where a product with zero is taken to be zero.
-/

namespace FormulaCalculus

open Scalar (isNaN)

/-- Number systems with the laws of IEEE arithmetic for undefined values, equality and neutral
elements. -/
class LawfulRounding (α : Type) [Scalar α] : Prop extends LawfulScalar α where
  beq_refl : ∀ x : α, isNaN x = false → x == x
  beq_symm : ∀ x y : α, x == y → y == x
  beq_trans : ∀ x y z : α, x == y → y == z → x == z
  isNaN_of_beq : ∀ x y : α, x == y → isNaN x = false
  isNaN_nan : isNaN (Scalar.nan : α)
  isNaN_add : ∀ x y : α, isNaN x ∨ isNaN y → isNaN (x + y)
  isNaN_sub : ∀ x y : α, isNaN x ∨ isNaN y → isNaN (x - y)
  isNaN_mul : ∀ x y : α, isNaN x ∨ isNaN y → isNaN (x * y)
  isNaN_div : ∀ x y : α, isNaN x ∨ isNaN y → isNaN (x / y)
  add_congr : ∀ x x' y y' : α, x == x' → y == y' → isNaN (x + y) = false → x + y == x' + y'
  mul_congr : ∀ x x' y y' : α, x == x' → y == y' → isNaN (x * y) = false → x * y == x' * y'
  /-- The dividend may be the other zero, the divisor may not. -/
  div_congr : ∀ x x' y : α, x == x' → isNaN (x / y) = false → x / y == x' / y
  sub_eq : ∀ x y : α, isNaN y = false → x - y = x + -y
  add_comm : ∀ x y : α, isNaN (x + y) = false → x + y == y + x
  mul_comm : ∀ x y : α, isNaN (x * y) = false → x * y == y * x
  add_zero : ∀ x : α, isNaN x = false → x + Scalar.zero == x
  one_add_negOne : (Scalar.one + -Scalar.one : α) == Scalar.zero
  negOne_add_negOne : (-Scalar.one + -Scalar.one : α) == -Scalar.two
  mul_zero : ∀ x : α, isNaN (x * Scalar.zero) = false → x * Scalar.zero == Scalar.zero
  mul_one : ∀ x : α, isNaN x = false → x * Scalar.one == x
  mul_negOne : ∀ x : α, isNaN x = false → x * -Scalar.one == -x
  div_one : ∀ x : α, isNaN x = false → x / Scalar.one == x
  div_negOne : ∀ x : α, isNaN x = false → x / -Scalar.one == -x
  zero_div : ∀ x : α, isNaN (Scalar.zero / x) = false → Scalar.zero / x == Scalar.zero

variable {α : Type} [Scalar α]

/-- Whether two numbers compare equal, unless one of them is undefined. -/
def Scalar.Near (x y : α) : Prop := isNaN x ∨ isNaN y ∨ x == y

namespace BinaryFn

/-- Whether a function is a sum, a difference, a product or a quotient. -/
def IsArithmetic (f : BinaryFn) : Prop := f ≠ .pow ∧ f ≠ .atan2

instance (f : BinaryFn) : Decidable f.IsArithmetic :=
  inferInstanceAs (Decidable (f ≠ .pow ∧ f ≠ .atan2))

/-- Whether a function gives zero for a zero operand, whatever the other operand is. -/
def Absorbs : BinaryFn → α → α → Prop
  | mul, x, y => x == Scalar.zero ∨ y == Scalar.zero
  | div, x, _ => x == Scalar.zero
  | _, _, _ => False

/-- Whether a number is what a function gives, unless it is undefined; a zero may have absorbed an
infinite or undefined operand. -/
inductive Yields (f : BinaryFn) (x y z : α) : Prop
  | undefined (h : isNaN z)
  | rounds (h : z == f.real x y)
  | absorbs (h : f.Absorbs x y) (hz : z == Scalar.zero)

end BinaryFn

namespace LawfulRounding

variable [LawfulRounding α] {f : BinaryFn} {x x' y y' z z' : α}

theorem isNaN_of_beq_right (h : x == y) : isNaN y = false := isNaN_of_beq _ _ (beq_symm _ _ h)

omit [LawfulRounding α] in
theorem beq_of_not_isNaN (h : isNaN x ∨ x == y) (hx : isNaN x = false) : x == y := by
  rcases h with hnan | h
  · rw [hx] at hnan
    nomatch hnan
  · exact h

theorem isNaN_or_beq_self (x : α) : isNaN x ∨ x == x := by
  cases h : isNaN x with
  | true => exact Or.inl rfl
  | false => exact Or.inr (beq_refl x h)

theorem neg_congr (h : x == y) : -x == -y := by
  rwa [LawfulScalar.neg_beq, LawfulScalar.neg_neg]

theorem neg_zero_beq : -(Scalar.zero : α) == Scalar.zero := by
  rw [LawfulScalar.neg_beq, LawfulScalar.beq_neg_zero]
  exact LawfulScalar.zero_beq_zero

theorem isNaN_zero : isNaN (Scalar.zero : α) = false := isNaN_of_beq _ _ LawfulScalar.zero_beq_zero

omit [LawfulRounding α] in
theorem isNaN_left {g : α → α → α} (hg : ∀ x y : α, isNaN x ∨ isNaN y → isNaN (g x y))
    (h : isNaN (g x y) = false) : isNaN x = false := by
  cases hx : isNaN x with
  | false => rfl
  | true =>
    rw [hg x y (Or.inl hx)] at h
    nomatch h

omit [LawfulRounding α] in
theorem isNaN_right {g : α → α → α} (hg : ∀ x y : α, isNaN x ∨ isNaN y → isNaN (g x y))
    (h : isNaN (g x y) = false) : isNaN y = false := by
  cases hy : isNaN y with
  | false => rfl
  | true =>
    rw [hg x y (Or.inr hy)] at h
    nomatch h

theorem isNaN_one : isNaN (Scalar.one : α) = false :=
  isNaN_left isNaN_add (isNaN_of_beq _ _ one_add_negOne)

theorem isNaN_negOne : isNaN (-Scalar.one : α) = false := by
  rw [LawfulScalar.isNaN_neg, isNaN_one]

theorem zero_add (h : isNaN x = false) : Scalar.zero + x == x := by
  have hsum := add_zero x h
  have hcomm := add_comm x Scalar.zero (isNaN_of_beq _ _ hsum)
  exact beq_trans _ _ _ (beq_symm _ _ hcomm) hsum

theorem sub_zero (h : isNaN x = false) : x - Scalar.zero == x := by
  have hsum := add_zero x h
  have hneg := add_congr x x _ _ (beq_refl x h) (beq_symm _ _ neg_zero_beq) (isNaN_of_beq _ _ hsum)
  rw [sub_eq x Scalar.zero isNaN_zero]
  exact beq_trans _ _ _ (beq_symm _ _ hneg) hsum

theorem zero_sub (h : isNaN x = false) : Scalar.zero - x == -x := by
  rw [sub_eq Scalar.zero x h]
  exact zero_add ((LawfulScalar.isNaN_neg x).trans h)

theorem one_mul (h : isNaN x = false) : Scalar.one * x == x := by
  have hproduct := mul_one x h
  have hcomm := mul_comm x Scalar.one (isNaN_of_beq _ _ hproduct)
  exact beq_trans _ _ _ (beq_symm _ _ hcomm) hproduct

theorem negOne_mul (h : isNaN x = false) : -Scalar.one * x == -x := by
  have hproduct := mul_negOne x h
  have hcomm := mul_comm x (-Scalar.one) (isNaN_of_beq _ _ hproduct)
  exact beq_trans _ _ _ (beq_symm _ _ hcomm) hproduct

/-- A product with either zero is zero, unless the other factor is infinite. -/
theorem mul_eq_zero (h : x == Scalar.zero ∨ y == Scalar.zero) (hxy : isNaN (x * y) = false) :
    x * y == Scalar.zero := by
  have hright {x y : α} (hy : y == Scalar.zero) (hxy : isNaN (x * y) = false) :
      x * y == Scalar.zero := by
    have hx := beq_refl x (isNaN_left isNaN_mul hxy)
    have hcongr := mul_congr x x y Scalar.zero hx hy hxy
    exact beq_trans _ _ _ hcongr (mul_zero x (isNaN_of_beq_right hcongr))
  rcases h with hx | hy
  · have hcomm := mul_comm x y hxy
    exact beq_trans _ _ _ hcomm (hright hx (isNaN_of_beq_right hcomm))
  · exact hright hy hxy

theorem sub_congr (hx : x == x') (hy : y == y') (h : isNaN (x - y) = false) :
    x - y == x' - y' := by
  rw [sub_eq x y (isNaN_of_beq _ _ hy)] at h ⊢
  rw [sub_eq x' y' (isNaN_of_beq_right hy)]
  exact add_congr x x' _ _ hx (neg_congr hy) h

/-! ### Near numbers -/

omit [LawfulRounding α] in
theorem near_of_beq (h : x == y) : Scalar.Near x y := Or.inr (Or.inr h)

theorem near_refl (x : α) : Scalar.Near x x := (isNaN_or_beq_self x).imp_right Or.inr

theorem near_symm (h : Scalar.Near x y) : Scalar.Near y x := by
  rcases h with h | h | h
  · exact Or.inr (Or.inl h)
  · exact Or.inl h
  · exact near_of_beq (beq_symm _ _ h)

theorem near_trans (hx : Scalar.Near x y) (hy : Scalar.Near y z) (h : isNaN y = false) :
    Scalar.Near x z := by
  rcases hx with hx | hnan | hx
  · exact Or.inl hx
  · rw [h] at hnan
    nomatch hnan
  · rcases hy with hnan | hz | hy
    · rw [h] at hnan
      nomatch hnan
    · exact Or.inr (Or.inl hz)
    · exact near_of_beq (beq_trans _ _ _ hx hy)

theorem near_neg (h : Scalar.Near x y) : Scalar.Near (-x) (-y) := by
  rw [Scalar.Near, LawfulScalar.isNaN_neg, LawfulScalar.isNaN_neg]
  exact h.imp_right (Or.imp_right neg_congr)

omit [LawfulRounding α] in
theorem beq_of_near (h : Scalar.Near x y) (hx : isNaN x = false) (hy : isNaN y = false) :
    x == y := by
  rcases h with hnan | hnan | h
  · rw [hx] at hnan
    nomatch hnan
  · rw [hy] at hnan
    nomatch hnan
  · exact h

/-- Numbers that equal the opposites of near ones, unless they are undefined. -/
theorem near_of_neg (h : Scalar.Near x y) (hx : isNaN x' ∨ x' == -x) (hy : isNaN y' ∨ y' == -y) :
    Scalar.Near x' y' := by
  rcases hx with hnan | hx
  · exact Or.inl hnan
  · rcases hy with hnan | hy
    · exact Or.inr (Or.inl hnan)
    · have hnear := beq_of_near (near_neg h) (isNaN_of_beq_right hx) (isNaN_of_beq_right hy)
      have hleft := beq_trans _ _ _ hx hnear
      exact near_of_beq (beq_trans _ _ _ hleft (beq_symm _ _ hy))

theorem isNaN_real (hf : f.IsArithmetic) (h : isNaN (f.real x y) = false) :
    isNaN x = false ∧ isNaN y = false := by
  cases f with
  | add => exact ⟨isNaN_left isNaN_add h, isNaN_right isNaN_add h⟩
  | sub => exact ⟨isNaN_left isNaN_sub h, isNaN_right isNaN_sub h⟩
  | mul => exact ⟨isNaN_left isNaN_mul h, isNaN_right isNaN_mul h⟩
  | div => exact ⟨isNaN_left isNaN_div h, isNaN_right isNaN_div h⟩
  | pow => exact absurd rfl hf.1
  | atan2 => exact absurd rfl hf.2

/-- Functions of numbers that compare equal; divisors have to be the same. -/
theorem real_congr (hf : f.IsArithmetic) (hx : x == x') (hy : y == y') (hdiv : f = .div → y = y')
    (h : isNaN (f.real x y) = false) : f.real x y == f.real x' y' := by
  cases f with
  | add => exact add_congr x x' y y' hx hy h
  | sub => exact sub_congr hx hy h
  | mul => exact mul_congr x x' y y' hx hy h
  | div =>
    obtain rfl := hdiv rfl
    exact div_congr x x' y hx h
  | pow => exact absurd rfl hf.1
  | atan2 => exact absurd rfl hf.2

theorem yields_of_beq (hz : isNaN z ∨ z == x') (h : isNaN x' = false → x' == f.real x y) :
    f.Yields x y z := by
  rcases hz with hz | hz
  · exact .undefined hz
  · exact .rounds (beq_trans _ _ _ hz (h (isNaN_of_beq_right hz)))

theorem absorbs_of_near (h : f.Absorbs x y) (hx : Scalar.Near x x') (hy : Scalar.Near y y')
    (hx' : isNaN x' = false) (hy' : isNaN y' = false) : f.Absorbs x' y' := by
  have hzero {x x' : α} (hx : Scalar.Near x x') (hx' : isNaN x' = false) (h : x == Scalar.zero) :
      x' == Scalar.zero := by
    have hbeq := beq_of_near hx (isNaN_of_beq _ _ h) hx'
    exact beq_trans _ _ _ (beq_symm _ _ hbeq) h
  cases f with
  | mul => exact h.imp (hzero hx hx') (hzero hy hy')
  | div => exact hzero hx hx' h
  | _ => exact h.elim

/-- What absorbs its operands is zero, unless it is undefined. -/
theorem real_eq_zero (h : f.Absorbs x y) (hnum : isNaN (f.real x y) = false) :
    f.real x y == Scalar.zero := by
  cases f with
  | mul => exact mul_eq_zero h hnum
  | div =>
    have hcongr := div_congr x Scalar.zero y h hnum
    exact beq_trans _ _ _ hcongr (zero_div y (isNaN_of_beq_right hcongr))
  | _ => exact h.elim

/-- What a function yields of near numbers is near. -/
theorem near_of_yields (hf : f.IsArithmetic) (hx : Scalar.Near x x') (hy : Scalar.Near y y')
    (hdiv : f = .div → y = y') (hz : f.Yields x y z) (hz' : f.Yields x' y' z') :
    Scalar.Near z z' := by
  -- a zero that has absorbed an operand is what the other result is, if that is defined
  have habsorbed {x y z x' y' z' : α} (hx : Scalar.Near x x') (hy : Scalar.Near y y')
      (h : f.Absorbs x y) (hz : z == Scalar.zero) (hz' : z' == f.real x' y') : z == z' := by
    have hnum := isNaN_of_beq_right hz'
    obtain ⟨hx', hy'⟩ := isNaN_real hf hnum
    have hzero := real_eq_zero (absorbs_of_near h hx hy hx' hy') hnum
    exact beq_trans _ _ _ hz (beq_symm _ _ (beq_trans _ _ _ hz' hzero))
  cases hz with
  | undefined h => exact Or.inl h
  | rounds h =>
    cases hz' with
    | undefined h' => exact Or.inr (Or.inl h')
    | rounds h' =>
      have hnum := isNaN_of_beq_right h
      obtain ⟨hxnum, hynum⟩ := isNaN_real hf hnum
      obtain ⟨hxnum', hynum'⟩ := isNaN_real hf (isNaN_of_beq_right h')
      have hcongr := real_congr hf (beq_of_near hx hxnum hxnum') (beq_of_near hy hynum hynum')
        hdiv hnum
      exact near_of_beq (beq_trans _ _ _ (beq_trans _ _ _ h hcongr) (beq_symm _ _ h'))
    | absorbs hzero h' =>
      exact near_of_beq (beq_symm _ _ (habsorbed (near_symm hx) (near_symm hy) hzero h' h))
  | absorbs hzero h =>
    cases hz' with
    | undefined h' => exact Or.inr (Or.inl h')
    | rounds h' => exact near_of_beq (habsorbed hx hy hzero h h')
    | absorbs _ h' => exact near_of_beq (beq_trans _ _ _ h (beq_symm _ _ h'))

end LawfulRounding

end FormulaCalculus
