import FormulaCalculus.Proofs.Decimal.Positional
import FormulaCalculus.Proofs.Scalar.Decimals
import FormulaCalculus.Proofs.Tree.Printing

/-!
Finite machine numbers read back. The shortest decimal of a number lies in the interval of what is
rounded to it, its positional written form is a numeral that stands for it, and so the numeral is
read as the number.
-/

namespace FormulaCalculus

open Float.Model (UnpackedFloat Format totalExponent)
open Float.Model.UnpackedFloat (Sign)

namespace Binary64

variable {x : Float} {m : Nat} {e : Int}

theorem toNat_unpackMantissa (b : BitVec Format.binary64.numBits) :
    (UnpackedFloat.unpackMantissa b).toNat = b.toNat % 2 ^ 52 := by
  change (b.extractLsb 51 0).toNat = _
  rw [BitVec.extractLsb_toNat]
  rfl

theorem toNat_unpackExponent (b : BitVec Format.binary64.numBits) :
    (UnpackedFloat.unpackExponent b).toNat = b.toNat / 2 ^ 52 % 2048 := by
  change (b.extractLsb 62 52).toNat = _
  rw [BitVec.extractLsb_toNat, Nat.shiftRight_eq_div_pow]

theorem toNat_unpackSign (b : BitVec Format.binary64.numBits) :
    (UnpackedFloat.unpackSign b).toNat = b.toNat / 2 ^ 63 % 2 := by
  change (b.extractLsb 63 63).toNat = _
  rw [BitVec.extractLsb_toNat, Nat.shiftRight_eq_div_pow]

/-- The mantissa of a normal number, with its hidden bit. -/
theorem toNat_hidden_append (b : BitVec Format.binary64.numBits) :
    (1#1 ++ UnpackedFloat.unpackMantissa b).toNat = 2 ^ 52 + b.toNat % 2 ^ 52 := by
  rw [BitVec.toNat_append, ← Nat.shiftLeft_add_eq_or_of_lt (BitVec.isLt _), toNat_unpackMantissa]
  rfl

/-- The sign bit of a positive number is not set. -/
theorem lt_of_positive {b : BitVec Format.binary64.numBits}
    (h : Sign.ofBitVec (UnpackedFloat.unpackSign b) = .positive) : b.toNat < 2 ^ 63 := by
  have hlt : b.toNat < 2 ^ 64 := b.isLt
  have hsign := toNat_unpackSign b
  have hzero : UnpackedFloat.unpackSign b = 0#1 := by
    by_contra hne
    rw [Sign.ofBitVec, if_neg hne] at h
    nomatch h
  rw [hzero] at hsign
  change 0 = b.toNat / 2 ^ 63 % 2 at hsign
  omega

/-- The parts of a positive number are those that it is unpacked to. -/
theorem ofFloat_eq {hm : 0 < m} (h : x.toModel.unpack = .finite .positive m e hm) :
    ofFloat x = .finite false m e := by
  obtain ⟨n, hn⟩ : ∃ n, n = x.toBits.toNat := ⟨_, rfl⟩
  obtain ⟨b, hb⟩ : ∃ b : BitVec Format.binary64.numBits, b = x.toModel.toBits.toBitVec := ⟨_, rfl⟩
  have hbits : b.toNat = n := by
    rw [hb, hn]
    rfl
  have hmantissa := toNat_unpackMantissa b
  have hdigits := toNat_hidden_append b
  have hexponent := toNat_unpackExponent b
  rw [hbits] at hmantissa hdigits hexponent
  have hbit : hiddenBit = 2 ^ 52 := rfl
  have hleast : leastExponent = -1074 := rfl
  unfold ofFloat
  rw [← hn, hbit, hleast]
  dsimp only
  have hunpack : UnpackedFloat.unpack .binary64 b = .finite .positive m e hm := by
    rw [hb]
    exact h
  unfold UnpackedFloat.unpack at hunpack
  dsimp only at hunpack
  have hplus (hpositive : Sign.ofBitVec (UnpackedFloat.unpackSign b) = .positive) :
      decide (n ≥ 9223372036854775808) = false := by
    have hlt := lt_of_positive hpositive
    exact decide_eq_false (by omega)
  have hfinite (hmax : UnpackedFloat.unpackExponent b ≠ -1#_) : n / 2 ^ 52 % 2048 ≠ 2047 :=
    fun h => hmax (BitVec.eq_of_toNat_eq (hexponent.trans h))
  split_ifs at hunpack with hmax hinf hmin hzero
  -- a subnormal number: both readings take the least exponent
  · rw [UnpackedFloat.finite.injEq] at hunpack
    obtain ⟨hpositive, rfl, rfl⟩ := hunpack
    have hleast : n / 2 ^ 52 % 2048 = 0 := by
      rw [← hexponent, hmin]
      rfl
    rw [if_neg (hfinite hmax), if_pos hleast, hplus hpositive, hmantissa, hexponent, hleast]
    rfl
  -- a normal number: the hidden bit stands in front of the stored ones
  · rw [UnpackedFloat.finite.injEq] at hunpack
    obtain ⟨hpositive, rfl, rfl⟩ := hunpack
    have hnormal : n / 2 ^ 52 % 2048 ≠ 0 := fun h =>
      hmin (BitVec.eq_of_toNat_eq (hexponent.trans h))
    rw [if_neg (hfinite hmax), if_neg hnormal, hplus hpositive, hdigits, hexponent]
    have hexact : -1074 + ((n / 2 ^ 52 % 2048 : Nat) : Int) - 1 =
        ((n / 2 ^ 52 % 2048 : Nat) : Int) - (((1023 : Nat) : Int) + ((52 : Nat) : Int)) := by omega
    rw [hexact]
    rfl

/-- What is written for a positive number is read as the number. -/
theorem readsBack {hm : 0 < m} (h : x.toModel.unpack = .finite .positive m e hm) :
    IsNumeral (ofFloat x).render.toList ∧ ∃ d k,
      Numeral.parse? (ofFloat x).render.toList = some (.decimal false d k) ∧
        Binary64.ofDecimal d k = x := by
  obtain ⟨hlog, -, -⟩ := Nearest.canonical_iff.mp (Nearest.canonical_of_unpack h)
  have hdigits : m < 2 ^ 53 := (Nat.log2_lt hm.ne').mp (by omega)
  have hholds := Binary64.holds_shortest (q := e) hm hdigits
  have hrender : (ofFloat x).render = (interval m e).shortest.render := by
    rw [ofFloat_eq h, render]
    simp [hm.ne']
  obtain ⟨d, k, hparse, hvalue⟩ := (interval m e).shortest.parse?_render
  rw [hrender]
  rw [← hvalue] at hholds
  exact ⟨Decimal.isNumeral_render _, d, k, hparse, Nearest.ofDecimal_eq h hholds⟩

end Binary64

namespace Double

theorem unpack_infinity : (1 / 0 : Float).toModel.unpack = .infinity .positive := rfl

theorem not_isFinite_of_unpack {y : Float} {hy : y.isNaN = false} {s : Sign}
    (h : y.toModel.unpack = .infinity s) : Scalar.isFinite (number y hy) = false := by
  have habs : y.abs.toModel.unpack = .infinity .positive := by
    have hpacked : y.abs.toModel.unpack = repack y.toModel.unpack.abs := rfl
    rw [hpacked, h]
    cases s <;> rfl
  -- infinities are told by comparison, not by their bits
  have hbeq : y.abs == 1 / 0 := by
    rw [float_beq_iff, habs, unpack_infinity]
    exact ⟨nofun, .refl _⟩
  have hinfinite : Scalar.isInfinite (number y hy) = true := ofFloat_beq hbeq
  rw [Scalar.isFinite, hinfinite]
  exact Bool.and_false _

/-- The comparison with zero looks at the sign. -/
theorem lt_zero_of_unpack {y : Float} (hy : y.isNaN = false) {s : Sign} {m : Nat} {e : Int}
    {hm : 0 < m} (h : y.toModel.unpack = .finite s m e hm) :
    Scalar.lt (number y hy) Scalar.zero = (s == .negative) := by
  have hlt : Scalar.lt (number y hy) Scalar.zero =
      y.toModel.unpack.lt (0 : Float).toModel.unpack := by
    have hzero : (Scalar.zero : Double) = number 0 float_zero_isNaN := zero_eq
    rw [hzero]
    change decide (y < 0) = _
    rw [Bool.eq_iff_iff, decide_eq_true_iff]
    exact decide_eq_true_iff
  rw [hlt, unpack_zero, h]
  cases s <;> rfl

/-- The magnitude of a finite number other than zero. -/
theorem exists_magnitude {x : Double} (hfinite : Scalar.isFinite x = true)
    (hzero : (x == Scalar.zero) = false) : ∃ y hy m e hm, Scalar.magnitude x = number y hy ∧
      y.toModel.unpack = .finite .positive m e hm := by
  cases x with
  | nan s => nomatch hfinite
  | number y hy =>
    cases hunpack : y.toModel.unpack with
    | notANumber =>
      rw [float_isNaN_iff.mpr hunpack] at hy
      nomatch hy
    | infinity s =>
      rw [not_isFinite_of_unpack hunpack] at hfinite
      nomatch hfinite
    | zero s =>
      have hbeq : number y hy == Scalar.zero := by
        rw [zero_eq]
        change y == 0
        rw [float_beq_iff, hunpack, unpack_zero]
        exact ⟨nofun, .zeros _ _⟩
      rw [hbeq] at hzero
      nomatch hzero
    | finite s m e hm =>
      have hlt := lt_zero_of_unpack hy hunpack
      cases s with
      | positive =>
        refine ⟨y, hy, m, e, hm, ?_, hunpack⟩
        rw [Scalar.magnitude, hlt]
        rfl
      | negative =>
        refine ⟨-y, (float_isNaN_neg y).trans hy, m, e, hm, ?_, ?_⟩
        · rw [Scalar.magnitude, hlt, neg_number]
          rfl
        · rw [unpack_neg, hunpack]
          rfl

/-- A finite number other than zero is written, without its minus, as a numeral that stands for it.
-/
theorem readsBack_magnitude {x : Double} (hfinite : Scalar.isFinite x = true)
    (hzero : (x == Scalar.zero) = false) : ReadsBack (Scalar.magnitude x) := by
  obtain ⟨y, hy, m, e, hm, hmagnitude, hunpack⟩ := exists_magnitude hfinite hzero
  obtain ⟨hnumeral, d, k, hparse, hread⟩ := Binary64.readsBack hunpack
  rw [hmagnitude]
  refine ⟨hnumeral, ?_⟩
  have hrender : DecimalText.render (number y hy) = (Binary64.ofFloat y).render := rfl
  rw [hrender, hparse]
  change some (ofFloat (Binary64.ofDecimal d k)) = _
  rw [hread, ofFloat_eq hy]

end Double

end FormulaCalculus
