import Mathlib.Algebra.Order.Ring.Rat
import Mathlib.Data.Rat.Sqrt
import Mathlib.Tactic.NormNum
import FormulaCalculus.Proofs.Scalar.Arithmetic

/-!
Exact rational numbers as scalars. What is not rational, such as most values of the elementary
functions, or not defined is one further value, so there are no infinite numbers and nothing is
rounded.
-/

namespace FormulaCalculus

/-- A rational number, or the value of what is none. -/
inductive Rational where
  | undefined
  | number (q : ℚ)
  deriving DecidableEq

namespace Rational

def map (f : ℚ → ℚ) : Rational → Rational
  | undefined => undefined
  | number p => number (f p)

def map₂ (f : ℚ → ℚ → ℚ) : Rational → Rational → Rational
  | number p, number q => number (f p q)
  | _, _ => undefined

/-- A relation of two numbers; what is no number is related to none. -/
def compare (r : ℚ → ℚ → Bool) : Rational → Rational → Bool
  | number p, number q => r p q
  | _, _ => false

/-- A function with one rational value known at one rational number. -/
def knownAt (p value : ℚ) : Rational → Rational
  | undefined => undefined
  | number q => if q = p then number value else undefined

def div : Rational → Rational → Rational
  | number p, number q => if q = 0 then undefined else number (p / q)
  | _, _ => undefined

def sqrt : Rational → Rational
  | undefined => undefined
  | number q => if Rat.sqrt q * Rat.sqrt q = q then number (Rat.sqrt q) else undefined

/-- The power. Anything to the power zero is one, and so is one to any power; other powers are
defined for whole exponents, and for positive exponents if the base is zero. -/
def pow (x y : Rational) : Rational :=
  if y = number 0 ∨ x = number 1 then number 1
  else
    match x, y with
    | number p, number q =>
      if p = 0 then if 0 < q then number 0 else undefined
      else if q.den = 1 then number (p ^ q.num) else undefined
    | _, _ => undefined

/-- The angle of a point on the positive axis, where it is rational. -/
def atan2 : Rational → Rational → Rational
  | number p, number q => if p = 0 ∧ 0 < q then number 0 else undefined
  | _, _ => undefined

end Rational

open Rational in
instance : Scalar Rational where
  add := map₂ (· + ·)
  sub := map₂ (· - ·)
  mul := map₂ (· * ·)
  div := Rational.div
  neg := map (- ·)
  beq := Rational.compare fun p q => p = q
  zero := number 0
  one := number 1
  e := number 2.718281828459045
  pi := number 3.141592653589793
  ln10 := number 2.302585092994046
  infinity := undefined
  nan := undefined
  ofDecimal m k := number (m * 10 ^ k)
  lt := Rational.compare fun p q => p < q
  le := Rational.compare fun p q => p ≤ q
  isNaN x := x = undefined
  isNegative := Rational.compare (fun p q => q < p) (number 0)
  isWhole
    | undefined => false
    | number q => q.den = 1
  abs := map abs
  sqrt := Rational.sqrt
  exp := knownAt 0 1
  log := knownAt 1 0
  log10 := knownAt 1 0
  sin := knownAt 0 0
  cos := knownAt 0 1
  tan := knownAt 0 0
  asin := knownAt 0 0
  acos := knownAt 1 0
  atan := knownAt 0 0
  sinh := knownAt 0 0
  cosh := knownAt 0 1
  tanh := knownAt 0 0
  asinh := knownAt 0 0
  acosh := knownAt 1 0
  atanh := knownAt 0 0
  pow := Rational.pow
  atan2 := Rational.atan2
  hypot x y := Rational.sqrt (map₂ (fun p q => p * p + q * q) x y)

namespace Rational

variable {x y : Rational} {p q : ℚ}

@[simp] theorem zero_eq : (Scalar.zero : Rational) = number 0 := rfl
@[simp] theorem one_eq : (Scalar.one : Rational) = number 1 := rfl
@[simp] theorem add_eq (p q : ℚ) : number p + number q = number (p + q) := rfl
@[simp] theorem sub_eq (p q : ℚ) : number p - number q = number (p - q) := rfl
@[simp] theorem mul_eq (p q : ℚ) : number p * number q = number (p * q) := rfl
@[simp] theorem neg_eq (p : ℚ) : -number p = number (-p) := rfl

theorem div_eq (p : ℚ) (hq : q ≠ 0) : number p / number q = number (p / q) := if_neg hq

@[simp] theorem number_beq (p q : ℚ) : (number p == number q) = decide (p = q) := rfl

theorem beq_iff : x == y ↔ ∃ p, x = number p ∧ y = number p := by
  cases x with
  | undefined =>
    constructor
    · intro h
      nomatch h
    · rintro ⟨p, hx, -⟩
      nomatch hx
  | number p =>
    cases y with
    | undefined =>
      constructor
      · intro h
        nomatch h
      · rintro ⟨q, -, hy⟩
        nomatch hy
    | number q => simp [eq_comm]

theorem beq_refl (p : ℚ) : number p == number p := beq_iff.mpr ⟨p, rfl, rfl⟩

/-- Every number is finite. -/
theorem isFinite_iff : Scalar.isFinite x ↔ ∃ p, x = number p := by
  cases x with
  | undefined =>
    constructor
    · intro h
      nomatch h
    · rintro ⟨p, hp⟩
      nomatch hp
  | number p => exact ⟨fun _ => ⟨p, rfl⟩, fun _ => rfl⟩

theorem isNaN_iff : Scalar.isNaN x ↔ x = undefined := decide_eq_true_iff

/-- An operation on two values is a number only if both are numbers. -/
theorem numbers_of_isFinite {f : Rational → Rational → Rational}
    (hleft : ∀ y, f undefined y = undefined) (hright : ∀ x, f x undefined = undefined)
    (h : Scalar.isFinite (f x y)) : Scalar.isFinite x ∧ Scalar.isFinite y := by
  cases x with
  | undefined =>
    rw [hleft] at h
    nomatch h
  | number p =>
    cases y with
    | undefined =>
      rw [hright] at h
      nomatch h
    | number q => exact ⟨rfl, rfl⟩

end Rational

open Rational

instance : LawfulScalar Rational where
  neg_neg x := by
    cases x with
    | undefined => rfl
    | number p => rw [neg_eq, neg_eq, neg_neg]
  neg_beq x y := by
    cases x with
    | undefined => rfl
    | number p =>
      cases y with
      | undefined => rfl
      | number q => simp [neg_eq_iff_eq_neg]
  beq_neg_zero x := by rw [zero_eq, neg_eq, neg_zero]
  zero_beq_zero := Rational.beq_refl 0
  isNaN_neg x := by cases x <;> rfl
  half_plain := ⟨by decide +kernel, by decide +kernel, by decide +kernel, by decide +kernel⟩
  two_plain := ⟨by decide +kernel, by decide +kernel, by decide +kernel, by decide +kernel⟩
  ln10_plain := ⟨by decide +kernel, by decide +kernel, by decide +kernel, by decide +kernel⟩

instance : LawfulArithmetic Rational where
  beq_refl x h := by
    obtain ⟨p, rfl⟩ := isFinite_iff.mp h
    exact Rational.beq_refl p
  beq_symm x y h := by
    obtain ⟨p, rfl, rfl⟩ := beq_iff.mp h
    exact Rational.beq_refl p
  beq_trans x y z h h' := by
    obtain ⟨p, rfl, rfl⟩ := beq_iff.mp h
    exact h'
  isFinite_of_beq x y h _ := by
    obtain ⟨p, rfl, rfl⟩ := beq_iff.mp h
    rfl
  isFinite_zero := rfl
  isFinite_one := rfl
  isFinite_neg x h := by
    obtain ⟨p, rfl⟩ := isFinite_iff.mp h
    rfl
  isNaN_nan := rfl
  not_isInfinite_of_isNaN x h := by
    obtain rfl := isNaN_iff.mp h
    rfl
  one_ne_zero := by simp
  add_zero x h := by
    obtain ⟨p, rfl⟩ := isFinite_iff.mp h
    simp
  add_comm x y h h' := by
    obtain ⟨p, rfl⟩ := isFinite_iff.mp h
    obtain ⟨q, rfl⟩ := isFinite_iff.mp h'
    simp [add_comm]
  add_congr x y z h _ heq := by
    obtain ⟨p, rfl⟩ := isFinite_iff.mp h
    obtain ⟨q, rfl, rfl⟩ := beq_iff.mp heq
    exact Rational.beq_refl _
  add_neg_self x h := by
    obtain ⟨p, rfl⟩ := isFinite_iff.mp h
    simp
  neg_add_neg x y h h' := by
    obtain ⟨p, rfl⟩ := isFinite_iff.mp h
    obtain ⟨q, rfl⟩ := isFinite_iff.mp h'
    simp [add_comm]
  isFinite_of_add x y h := numbers_of_isFinite (fun _ => rfl) (fun x => by cases x <;> rfl) h
  sub_eq x y h h' := by
    obtain ⟨p, rfl⟩ := isFinite_iff.mp h
    obtain ⟨q, rfl⟩ := isFinite_iff.mp h'
    simp [sub_eq_add_neg]
  isFinite_of_sub x y h := numbers_of_isFinite (fun _ => rfl) (fun x => by cases x <;> rfl) h
  isNaN_sub x y h := by
    obtain rfl := isNaN_iff.mp h
    rfl
  mul_zero x h := by
    obtain ⟨p, rfl⟩ := isFinite_iff.mp h
    simp
  mul_one x h := by
    obtain ⟨p, rfl⟩ := isFinite_iff.mp h
    simp
  mul_negOne x h := by
    obtain ⟨p, rfl⟩ := isFinite_iff.mp h
    simp
  mul_comm x y h h' := by
    obtain ⟨p, rfl⟩ := isFinite_iff.mp h
    obtain ⟨q, rfl⟩ := isFinite_iff.mp h'
    simp [mul_comm]
  isFinite_of_mul x y h := numbers_of_isFinite (fun _ => rfl) (fun x => by cases x <;> rfl) h
  isNaN_mul x y h _ := by
    cases x with
    | undefined => rfl
    | number p => nomatch h
  div_one x h := by
    obtain ⟨p, rfl⟩ := isFinite_iff.mp h
    simp [div_eq]
  div_negOne x h := by
    obtain ⟨p, rfl⟩ := isFinite_iff.mp h
    simp [div_eq, div_neg]
  zero_div x h h' := by
    cases x with
    | undefined => nomatch h
    | number p =>
      have hp : p ≠ 0 := by simpa using h'
      simp [div_eq, hp]
  isFinite_of_div x y h := by
    obtain ⟨hx, hy⟩ := numbers_of_isFinite (fun _ => rfl) (fun x => by cases x <;> rfl) h
    obtain ⟨q, rfl⟩ := isFinite_iff.mp hy
    exact ⟨hx, rfl⟩

theorem Rational.pow_eq_one {x y : Rational} (h : y = number 0 ∨ x = number 1) :
    Rational.pow x y = number 1 := if_pos h

theorem Rational.pow_number {p q : ℚ} (hp : p ≠ 0) (hq : q.den = 1) :
    Rational.pow (number p) (number q) = number (p ^ q.num) := by
  by_cases hone : q = 0 ∨ p = 1
  · have hvalue : p ^ q.num = 1 := by
      rcases hone with rfl | rfl
      · exact zpow_zero p
      · exact one_zpow _
    simp [Rational.pow, hone, hvalue]
  · simp [Rational.pow, hone, hp, hq]

/-- No power with an exponent that is not whole is rational, unless one of the two is one or
zero. -/
theorem Rational.pow_undefined {x y : Rational} (hx : x ≠ number 0) (hone : x ≠ number 1)
    (hy : Scalar.isWhole y = false) (hzero : y ≠ number 0) : Rational.pow x y = undefined := by
  unfold Rational.pow
  rw [if_neg (not_or.mpr ⟨hzero, hone⟩)]
  cases x with
  | undefined => rfl
  | number p =>
    cases y with
    | undefined => rfl
    | number q =>
      have hp : p ≠ 0 := fun h => hx (congrArg number h)
      have hq : q.den ≠ 1 := of_decide_eq_false hy
      simp [hp, hq]

instance : LawfulPower Rational where
  pow_zero x y h := by
    obtain ⟨q, rfl, hq⟩ := beq_iff.mp h
    obtain rfl := Rational.number.inj hq
    exact beq_iff.mpr ⟨1, Rational.pow_eq_one (Or.inl rfl), rfl⟩
  pow_one x h := by
    obtain ⟨p, rfl⟩ := isFinite_iff.mp h
    by_cases hp : p = 0
    · subst hp
      decide +kernel
    · have hpow := Rational.pow_number (q := 1) hp rfl
      exact beq_iff.mpr ⟨p, hpow.trans (by simp), rfl⟩
  pow_negOne x h := by
    cases x with
    | undefined => nomatch h
    | number p =>
      have hp : p ≠ 0 := by
        rintro rfl
        nomatch h
      have hpow := Rational.pow_number (q := -1) hp rfl
      refine beq_iff.mpr ⟨1 / p, hpow.trans ?_, div_eq 1 hp⟩
      simp
  one_pow y := beq_iff.mpr ⟨1, Rational.pow_eq_one (Or.inr rfl), rfl⟩
  zero_pow x y h h' := by
    obtain ⟨p, rfl, hp⟩ := beq_iff.mp h
    obtain rfl := Rational.number.inj hp
    cases y with
    | undefined => nomatch h'
    | number q =>
      have hq : 0 < q := of_decide_eq_true h'
      refine beq_iff.mpr ⟨0, ?_, rfl⟩
      change Rational.pow (number 0) (number q) = number 0
      simp [Rational.pow, hq, hq.ne']
  pow_negative x y hx hy hzero h := by
    exfalso
    have hxzero : x ≠ number 0 := by
      rintro rfl
      nomatch hx
    have hxone : x ≠ number 1 := by
      rintro rfl
      nomatch hx
    have hyzero : y ≠ number 0 := by
      rintro rfl
      nomatch hzero
    rw [show Scalar.pow x y = undefined from Rational.pow_undefined hxzero hxone hy hyzero] at h
    nomatch h
  log_one x h := by
    obtain ⟨p, rfl, hp⟩ := beq_iff.mp h
    obtain rfl := Rational.number.inj hp
    exact Rational.beq_refl 0
  isFinite_of_log x h := by
    cases x with
    | undefined => nomatch h
    | number p => rfl
  hypot_negOne x y h h' := by
    obtain ⟨p, rfl, hp⟩ := beq_iff.mp h
    obtain ⟨q, rfl, hq⟩ := beq_iff.mp h'
    obtain rfl := Rational.number.inj hp
    obtain rfl := Rational.number.inj hq
    decide +kernel
  isFinite_of_hypot x y h := by
    cases x with
    | undefined => nomatch h
    | number p => rfl
  isFinite_of_sin x h := by
    cases x with
    | undefined => nomatch h
    | number p => rfl

end FormulaCalculus
