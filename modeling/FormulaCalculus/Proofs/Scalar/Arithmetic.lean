import FormulaCalculus.Proofs.Algebra.WellFormed

/-!
Laws of rounded arithmetic. Equality is that of IEEE arithmetic, which the undefined value does not
satisfy with itself, and every law speaks of finite numbers; that an operation has a finite result
says as much of its operands.
-/

namespace FormulaCalculus

open Scalar (isFinite isInfinite isNaN)

/-- Number systems with the laws of IEEE arithmetic for equality, neutral elements and signs. -/
class LawfulArithmetic (α : Type) [Scalar α] : Prop extends LawfulScalar α where
  beq_refl : ∀ x : α, isFinite x → x == x
  beq_symm : ∀ x y : α, x == y → y == x
  beq_trans : ∀ x y z : α, x == y → y == z → x == z
  isFinite_of_beq : ∀ x y : α, x == y → isFinite x → isFinite y
  isFinite_zero : isFinite (Scalar.zero : α)
  isFinite_one : isFinite (Scalar.one : α)
  isFinite_neg : ∀ x : α, isFinite x → isFinite (-x)
  isNaN_nan : isNaN (Scalar.nan : α)
  not_isInfinite_of_isNaN : ∀ x : α, isNaN x → isInfinite x = false
  one_ne_zero : ((Scalar.one : α) == Scalar.zero) = false
  add_zero : ∀ x : α, isFinite x → x + Scalar.zero == x
  add_comm : ∀ x y : α, isFinite x → isFinite y → x + y == y + x
  add_congr : ∀ x y z : α, isFinite x → isFinite y → y == z → x + y == x + z
  add_neg_self : ∀ x : α, isFinite x → x + -x == Scalar.zero
  neg_add_neg : ∀ x y : α, isFinite x → isFinite y → -x + -y == -(x + y)
  isFinite_of_add : ∀ x y : α, isFinite (x + y) → isFinite x ∧ isFinite y
  sub_eq : ∀ x y : α, isFinite x → isFinite y → x - y == x + -y
  isFinite_of_sub : ∀ x y : α, isFinite (x - y) → isFinite x ∧ isFinite y
  isNaN_sub : ∀ x y : α, isNaN x → isNaN (x - y)
  mul_zero : ∀ x : α, isFinite x → x * Scalar.zero == Scalar.zero
  mul_one : ∀ x : α, isFinite x → x * Scalar.one == x
  mul_negOne : ∀ x : α, isFinite x → x * -Scalar.one == -x
  mul_comm : ∀ x y : α, isFinite x → isFinite y → x * y == y * x
  isFinite_of_mul : ∀ x y : α, isFinite (x * y) → isFinite x ∧ isFinite y
  /-- A zero times an infinite number is undefined. -/
  isNaN_mul : ∀ x y : α, isFinite x = false → y == Scalar.zero → isNaN (x * y)
  div_one : ∀ x : α, isFinite x → x / Scalar.one == x
  div_negOne : ∀ x : α, isFinite x → x / -Scalar.one == -x
  zero_div : ∀ x : α, isNaN x = false → (x == Scalar.zero) = false →
    Scalar.zero / x == Scalar.zero
  isFinite_of_div : ∀ x y : α, isFinite (x / y) → isFinite x ∧ isNaN y = false

/-- Number systems with the laws of IEEE arithmetic for powers. -/
class LawfulPower (α : Type) [Scalar α] : Prop where
  pow_zero : ∀ x y : α, y == Scalar.zero → Scalar.pow x y == Scalar.one
  pow_one : ∀ x : α, isFinite x → Scalar.pow x Scalar.one == x
  pow_negOne : ∀ x : α, isFinite (Scalar.one / x) → Scalar.pow x (-Scalar.one) == Scalar.one / x
  one_pow : ∀ y : α, Scalar.pow Scalar.one y == Scalar.one
  zero_pow : ∀ x y : α, x == Scalar.zero → Scalar.lt Scalar.zero y → Scalar.pow x y == Scalar.zero
  /-- No power of a negative number with an exponent that is not whole is a number, unless one of
  the two is infinite; then it is zero or infinite, except that a power of minus one can be one. -/
  pow_negative : ∀ x y : α, Scalar.le Scalar.zero x = false → Scalar.isWhole y = false →
    (y == Scalar.zero) = false → isFinite (Scalar.pow x y) →
      (isFinite x = false ∨ isFinite y = false) ∧
        (Scalar.pow x y == Scalar.zero ∨ x == -Scalar.one)
  log_one : ∀ x : α, x == Scalar.one → Scalar.log x == Scalar.zero
  isFinite_of_log : ∀ x : α, isFinite (Scalar.log x) → isFinite x
  hypot_negOne : ∀ x y : α, x == -Scalar.one → y == Scalar.zero → Scalar.hypot x y == Scalar.one
  isFinite_of_hypot : ∀ x y : α, isFinite (Scalar.hypot x y) → isFinite x
  isFinite_of_sin : ∀ x : α, isFinite (Scalar.sin x) → isFinite x

namespace LawfulArithmetic

variable {α : Type} [Scalar α] [LawfulArithmetic α] {x : α}

omit [LawfulArithmetic α] in
theorem not_isFinite_of_isNaN (h : isNaN x) : isFinite x = false := by
  rw [isFinite, h]
  rfl

theorem isFinite_negOne : isFinite (-Scalar.one : α) := isFinite_neg _ isFinite_one

theorem isFinite_of_neg (h : isFinite (-x)) : isFinite x := by
  have hneg := isFinite_neg _ h
  rwa [LawfulScalar.neg_neg] at hneg

theorem neg_zero_beq : -(Scalar.zero : α) == Scalar.zero := by
  rw [LawfulScalar.neg_beq, LawfulScalar.beq_neg_zero]
  exact LawfulScalar.zero_beq_zero

theorem zero_add (h : isFinite x) : Scalar.zero + x == x :=
  beq_trans _ _ _ (add_comm _ _ isFinite_zero h) (add_zero x h)

theorem sub_zero (h : isFinite x) : x - Scalar.zero == x := by
  have hneg : x + -Scalar.zero == x + Scalar.zero :=
    add_congr _ _ _ h (isFinite_neg _ isFinite_zero) neg_zero_beq
  have hsub := beq_trans _ _ _ (sub_eq x Scalar.zero h isFinite_zero) hneg
  exact beq_trans _ _ _ hsub (add_zero x h)

theorem zero_sub (h : isFinite x) : Scalar.zero - x == -x :=
  beq_trans _ _ _ (sub_eq _ _ isFinite_zero h) (zero_add (isFinite_neg x h))

theorem zero_mul (h : isFinite x) : Scalar.zero * x == Scalar.zero :=
  beq_trans _ _ _ (mul_comm _ _ isFinite_zero h) (mul_zero x h)

theorem one_mul (h : isFinite x) : Scalar.one * x == x :=
  beq_trans _ _ _ (mul_comm _ _ isFinite_one h) (mul_one x h)

theorem negOne_mul (h : isFinite x) : -Scalar.one * x == -x :=
  beq_trans _ _ _ (mul_comm _ _ isFinite_negOne h) (mul_negOne x h)

end LawfulArithmetic

end FormulaCalculus
