import FormulaCalculus.Proofs.Alike.Powers
import FormulaCalculus.Proofs.Scalar.Rational

/-!
Powers with exponent zero. The law is that of the standard power function of IEEE numbers: any base
to the power zero is one, an undefined base too. Rational numbers have it by definition, and
machine numbers do if the machine's power function has it.
-/

namespace FormulaCalculus

/-- Number systems in which every power with exponent zero is one, and zero is not positive. -/
class LawfulZeroPower (α : Type) [Scalar α] : Prop where
  pow_zero : ∀ x y : α, y == Scalar.zero → Scalar.pow x y == Scalar.one
  not_zero_lt : ∀ x : α, x == Scalar.zero → Scalar.lt Scalar.zero x = false

namespace Rational

variable {f : Rational → Rational → Rational} {x x' y y' : Rational}

theorem exists_of_not_isNaN (h : Scalar.isNaN x = false) : ∃ p, x = number p := by
  cases x with
  | undefined => exact Bool.noConfusion h
  | number p => exact ⟨p, rfl⟩

theorem beq_self (h : Scalar.isNaN x = false) : x == x := by
  obtain ⟨p, rfl⟩ := exists_of_not_isNaN h
  exact Rational.beq_refl p

theorem isNaN_of_operand (hleft : ∀ y, f undefined y = undefined)
    (hright : ∀ x, f x undefined = undefined) (h : Scalar.isNaN x ∨ Scalar.isNaN y) :
    Scalar.isNaN (f x y) := by
  rcases h with h | h
  · rw [isNaN_iff.mp h, hleft]
    rfl
  · rw [isNaN_iff.mp h, hright]
    rfl

/-- Equal rational numbers are the same, so operations do not tell them apart. -/
theorem real_congr (hx : x == x') (hy : y == y') (h : Scalar.isNaN (f x y) = false) :
    f x y == f x' y' := by
  obtain ⟨p, rfl, rfl⟩ := beq_iff.mp hx
  obtain ⟨q, rfl, rfl⟩ := beq_iff.mp hy
  exact beq_self h

theorem numbers_of_not_isNaN (hleft : ∀ y, f undefined y = undefined)
    (hright : ∀ x, f x undefined = undefined) (h : Scalar.isNaN (f x y) = false) :
    ∃ p q, x = number p ∧ y = number q := by
  have hnum (hxy : Scalar.isNaN x ∨ Scalar.isNaN y) : False := by
    rw [isNaN_of_operand hleft hright hxy] at h
    nomatch h
  cases x with
  | undefined => exact (hnum (Or.inl rfl)).elim
  | number p =>
    cases y with
    | undefined => exact (hnum (Or.inr rfl)).elim
    | number q => exact ⟨p, q, rfl, rfl⟩

end Rational

open Rational in
instance : LawfulRounding Rational where
  beq_refl _ := beq_self
  beq_symm := LawfulArithmetic.beq_symm
  beq_trans := LawfulArithmetic.beq_trans
  isNaN_of_beq x y h := by
    obtain ⟨p, rfl, -⟩ := beq_iff.mp h
    rfl
  isNaN_nan := rfl
  isNaN_add x y := isNaN_of_operand (fun _ => rfl) fun x => by cases x <;> rfl
  isNaN_sub x y := isNaN_of_operand (fun _ => rfl) fun x => by cases x <;> rfl
  isNaN_mul x y := isNaN_of_operand (fun _ => rfl) fun x => by cases x <;> rfl
  isNaN_div x y := isNaN_of_operand (fun _ => rfl) fun x => by cases x <;> rfl
  add_congr x x' y y' hx hy h := real_congr hx hy h
  mul_congr x x' y y' hx hy h := real_congr hx hy h
  div_congr x x' y hx h := by
    obtain ⟨p, rfl, rfl⟩ := beq_iff.mp hx
    exact beq_self h
  sub_eq x y h := by
    obtain ⟨q, rfl⟩ := exists_of_not_isNaN h
    cases x with
    | undefined => rfl
    | number p => rw [Rational.sub_eq, neg_eq, add_eq, sub_eq_add_neg]
  add_comm x y h := by
    obtain ⟨p, q, rfl, rfl⟩ := numbers_of_not_isNaN (fun _ => rfl) (fun x => by cases x <;> rfl) h
    exact LawfulArithmetic.add_comm _ _ rfl rfl
  mul_comm x y h := by
    obtain ⟨p, q, rfl, rfl⟩ := numbers_of_not_isNaN (fun _ => rfl) (fun x => by cases x <;> rfl) h
    exact LawfulArithmetic.mul_comm _ _ rfl rfl
  add_zero x h := by
    obtain ⟨p, rfl⟩ := exists_of_not_isNaN h
    exact LawfulArithmetic.add_zero _ rfl
  one_add_negOne := by decide +kernel
  negOne_add_negOne := by decide +kernel
  mul_zero x h := by
    obtain ⟨p, _, rfl, -⟩ := numbers_of_not_isNaN (fun _ => rfl) (fun x => by cases x <;> rfl) h
    exact LawfulArithmetic.mul_zero _ rfl
  mul_one x h := by
    obtain ⟨p, rfl⟩ := exists_of_not_isNaN h
    exact LawfulArithmetic.mul_one _ rfl
  mul_negOne x h := by
    obtain ⟨p, rfl⟩ := exists_of_not_isNaN h
    exact LawfulArithmetic.mul_negOne _ rfl
  div_one x h := by
    obtain ⟨p, rfl⟩ := exists_of_not_isNaN h
    exact LawfulArithmetic.div_one _ rfl
  div_negOne x h := by
    obtain ⟨p, rfl⟩ := exists_of_not_isNaN h
    exact LawfulArithmetic.div_negOne _ rfl
  zero_div x h := by
    obtain ⟨_, q, -, rfl⟩ := numbers_of_not_isNaN (fun _ => rfl) (fun x => by cases x <;> rfl) h
    have hq : (number q == Scalar.zero) = false := by
      by_contra hzero
      obtain ⟨r, hr, hr'⟩ := beq_iff.mp (Bool.eq_true_of_not_eq_false hzero)
      obtain rfl : q = 0 := (Rational.number.inj hr).trans (Rational.number.inj hr').symm
      nomatch h
    exact LawfulArithmetic.zero_div _ rfl hq

instance : LawfulZeroPower Rational where
  pow_zero := LawfulPower.pow_zero
  not_zero_lt x h := by
    obtain ⟨p, rfl, hp⟩ := Rational.beq_iff.mp h
    obtain rfl := Rational.number.inj hp
    rfl

/-- Machine numbers have the law if the machine's power function has it for numbers. Of an
undefined base they have it anyway. -/
theorem Double.lawfulZeroPower (hpow : ∀ x y : Float, y == 0 → Float.pow x y == 1) :
    LawfulZeroPower Double where
  pow_zero x y h := by
    obtain ⟨b, hb, _, hz, rfl, hzero, hbeq⟩ := exists_of_beq h
    rw [zero_eq] at hzero
    obtain rfl := Double.number.inj hzero
    have hone : Double.ofFloat 1 == Scalar.one := by
      decide +kernel
    cases x with
    | nan s =>
      change (if b == 0 then Double.ofFloat 1 else _) == Scalar.one
      rw [if_pos hbeq]
      exact hone
    | number a ha => exact Double.ofFloat_beq (hpow a b hbeq)
  not_zero_lt x h := by
    have hsame : Scalar.lt Scalar.zero x = Scalar.lt Scalar.zero (Scalar.zero : Double) :=
      test_alike (p := fun x => Scalar.lt Scalar.zero x) (by decide +kernel) (fun _ _ => rfl)
        (Or.inl h)
    rw [hsame]
    decide +kernel

end FormulaCalculus
