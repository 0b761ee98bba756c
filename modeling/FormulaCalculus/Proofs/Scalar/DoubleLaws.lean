import FormulaCalculus.Proofs.Scalar.Double
import FormulaCalculus.Proofs.Scalar.Rounding

/-!
The laws of rounded arithmetic hold of machine numbers. Rounding gives back every number that has
been packed before, and no operation tells the two zeros apart except by the sign of a zero or by
what it divides.
-/

namespace FormulaCalculus

open Float.Model (UnpackedFloat Format totalExponent)
open Float.Model.UnpackedFloat (Sign ExtendedMantissa)

namespace Double

/-! ### Rounding of what is exact -/

/-- Whether a finite number has the exponent that it is stored with. -/
def IsCanonical : UnpackedFloat → Prop
  | .finite _ m e _ => Format.binary64.targetExponent (totalExponent m e) = e
  | _ => True

theorem targetExponent_eq (k : Int) : Format.binary64.targetExponent k = max (k - 53) (-1074) := rfl

theorem log2_append (m : BitVec 52) : (1#1 ++ m).toNat.log2 = 52 := by
  have hlt := m.isLt
  have hvalue : (1#1 ++ m).toNat = 2 ^ 52 + m.toNat := by
    rw [BitVec.toNat_append, ← Nat.shiftLeft_add_eq_or_of_lt hlt]
    rfl
  rw [hvalue, Nat.log2_eq_iff (by omega)]
  omega

theorem isCanonical_unpack (b : BitVec Format.binary64.numBits) :
    IsCanonical (UnpackedFloat.unpack .binary64 b) := by
  have hbias : (Format.binary64.exponentBias : Int) = 1023 := rfl
  simp only [UnpackedFloat.unpack]
  split_ifs with hmax hinf hmin hzero
  · trivial
  · trivial
  · trivial
  · -- all subnormal numbers have the least exponent
    have hne : (UnpackedFloat.unpackMantissa b).toNat ≠ 0 :=
      fun h => hzero (BitVec.eq_of_toNat_eq h)
    have hlog : (UnpackedFloat.unpackMantissa b).toNat.log2 < 52 :=
      (Nat.log2_lt hne).mpr (UnpackedFloat.unpackMantissa b).isLt
    have hexponent : ((0#11).toNat : Int) = 0 := rfl
    change Format.binary64.targetExponent _ = _
    rw [targetExponent_eq, totalExponent, hmin, hbias, hexponent]
    omega
  · have hpos : 0 < (UnpackedFloat.unpackExponent b).toNat :=
      Nat.pos_of_ne_zero fun h => hmin (BitVec.eq_of_toNat_eq h)
    change Format.binary64.targetExponent _ = _
    rw [targetExponent_eq, totalExponent, log2_append, hbias]
    omega

theorem log2_mul_two_pow {m : Nat} (hm : m ≠ 0) (k : Nat) : (m * 2 ^ k).log2 = m.log2 + k := by
  induction k with
  | zero => rw [Nat.pow_zero, Nat.mul_one, Nat.add_zero]
  | succ k ih =>
    have hne : m * 2 ^ k ≠ 0 := Nat.mul_ne_zero hm (Nat.two_pow_pos k).ne'
    have hdouble : m * 2 ^ (k + 1) = 2 * (m * 2 ^ k) := by ring
    rw [hdouble, Nat.log2_two_mul hne, ih, Nat.add_assoc]

theorem shift_exact (m k : Nat) :
    (⟨m * 2 ^ k, false, false⟩ : ExtendedMantissa) >>> k = ⟨m, false, false⟩ := by
  induction k generalizing m with
  | zero =>
    rw [Nat.pow_zero, Nat.mul_one]
    rfl
  | succ k ih =>
    have hinner : m * 2 ^ (k + 1) = m * 2 * 2 ^ k := by ring
    have hstep : (⟨m * 2 ^ (k + 1), false, false⟩ : ExtendedMantissa) >>> (k + 1) =
        ((⟨m * 2 ^ (k + 1), false, false⟩ : ExtendedMantissa) >>> k).shiftRightOne := rfl
    rw [hstep, hinner, ih, ExtendedMantissa.shiftRightOne]
    simp

/-- Superfluous zeros at the end of a number are shifted out. -/
theorem shiftToTargetExponent_exact {m : Nat} {e : Int} (hm : 0 < m) (k : Nat)
    (h : Format.binary64.targetExponent (totalExponent m e) = e) :
    UnpackedFloat.shiftToTargetExponent .binary64 (m * 2 ^ k) (e - k) .exact =
      (⟨m, false, false⟩, e) := by
  have htotal : totalExponent (m * 2 ^ k) (e - k) = totalExponent m e := by
    rw [totalExponent, totalExponent, log2_mul_two_pow hm.ne']
    push_cast
    ring
  have hamount : (e - (e - (k : Int))).toNat = k := by omega
  rw [UnpackedFloat.shiftToTargetExponent, htotal, h, UnpackedFloat.shiftToExponent, hamount]
  simp only [ExtendedMantissa.ofMantissaAndAccuracy, shift_exact, Prod.mk.injEq, true_and]
  omega

/-- A number with superfluous zeros at its end is rounded to itself. -/
theorem roundWithAccuracy_exact {m : Nat} {e : Int} (hm : 0 < m) (s : Sign) (k : Nat)
    (h : Format.binary64.targetExponent (totalExponent m e) = e) :
    UnpackedFloat.roundWithAccuracy .binary64 s (m * 2 ^ k) (e - k) .exact = .finite s m e hm := by
  -- rounding shifts a second time, where nothing is left to shift out
  have hself := shiftToTargetExponent_exact hm 0 h
  simp only [Nat.pow_zero, Nat.mul_one, Int.sub_zero, Nat.cast_zero] at hself
  rw [UnpackedFloat.roundWithAccuracy, shiftToTargetExponent_exact hm k h]
  simp only [ExtendedMantissa.roundedMantissa, ExtendedMantissa.accuracy,
    UnpackedFloat.Accuracy.roundToNearestEven, hself]
  rw [dif_neg hm.ne']

/-! ### Operations on unpacked numbers -/

/-- The number that is stored when a number is packed. -/
def repack (u : UnpackedFloat) : UnpackedFloat :=
  UnpackedFloat.unpack .binary64 (u.pack .binary64)

/-- Whether two numbers are the same, or both zero. -/
inductive Alike : UnpackedFloat → UnpackedFloat → Prop
  | refl (u : UnpackedFloat) : Alike u u
  | zeros (s t : Sign) : Alike (.zero s) (.zero t)

variable {u u' v v' w : UnpackedFloat} {x x' y y' : Float}

theorem repack_unpack (x : Float) : repack x.toModel.unpack = x.toModel.unpack := by
  have hpack : x.toModel.unpack.pack .binary64 = x.toModel.toBits.toBitVec :=
    UnpackedFloat.pack_unpack_of_valid x.toModel.valid
  rw [repack, hpack]
  rfl

theorem Alike.repack (h : Alike u v) : Alike (repack u) (repack v) := by
  cases h with
  | refl => exact .refl _
  | zeros s t =>
    have hzero (s : Sign) : Double.repack (.zero s) = .zero s := UnpackedFloat.unpack_packedZero
    rw [hzero, hzero]
    exact .zeros s t

theorem Alike.symm (h : Alike u v) : Alike v u := by
  cases h with
  | refl => exact .refl _
  | zeros s t => exact .zeros t s

theorem Alike.trans (huv : Alike u v) (hvw : Alike v w) : Alike u w := by
  cases huv with
  | refl => exact hvw
  | zeros s t =>
    cases hvw with
    | refl => exact .zeros s t
    | zeros _ r => exact .zeros s r

theorem Alike.add (hu : Alike u u') (hv : Alike v v') :
    Alike (u.add .binary64 v) (u'.add .binary64 v') := by
  -- the sign of a zero decides nothing but the sign of a sum of two zeros
  have hzeros (s t : Sign) : ∃ r, UnpackedFloat.add .binary64 (.zero s) (.zero t) = .zero r := by
    rw [UnpackedFloat.add]
    split_ifs
    · exact ⟨_, rfl⟩
    · exact ⟨_, rfl⟩
  cases hu with
  | refl u =>
    cases hv with
    | refl v => exact .refl _
    | zeros s t =>
      cases u with
      | zero r =>
        obtain ⟨_, h⟩ := hzeros r s
        obtain ⟨_, h'⟩ := hzeros r t
        rw [h, h']
        exact .zeros _ _
      | _ => exact .refl _
  | zeros s t =>
    cases hv with
    | refl v =>
      cases v with
      | zero r =>
        obtain ⟨_, h⟩ := hzeros s r
        obtain ⟨_, h'⟩ := hzeros t r
        rw [h, h']
        exact .zeros _ _
      | _ => exact .refl _
    | zeros s' t' =>
      obtain ⟨_, h⟩ := hzeros s s'
      obtain ⟨_, h'⟩ := hzeros t t'
      rw [h, h']
      exact .zeros _ _

theorem Alike.mul (hu : Alike u u') (hv : Alike v v') :
    Alike (u.mul .binary64 v) (u'.mul .binary64 v') := by
  -- a product with a zero is a zero or undefined, whatever the sign
  cases hu with
  | refl u =>
    cases hv with
    | refl v => exact .refl _
    | zeros s t => cases u <;> first | exact .refl _ | exact .zeros _ _
  | zeros s t =>
    cases hv with
    | refl v => cases v <;> first | exact .refl _ | exact .zeros _ _
    | zeros s' t' => exact .zeros _ _

theorem Alike.div (hu : Alike u u') (v : UnpackedFloat) :
    Alike (u.div .binary64 v) (u'.div .binary64 v) := by
  -- the divisor stays the same: what is divided by zero has the sign of that zero
  cases hu with
  | refl u => exact .refl _
  | zeros s t => cases v <;> first | exact .refl _ | exact .zeros _ _

theorem add_zero_alike (u : UnpackedFloat) (s : Sign) : Alike (u.add .binary64 (.zero s)) u := by
  cases u with
  | zero t =>
    rw [UnpackedFloat.add]
    split_ifs
    · exact .refl _
    · exact .zeros _ _
  | _ => exact .refl _

theorem mul_zero_alike (s : Sign) :
    u.mul .binary64 (.zero s) = .notANumber ∨ Alike (u.mul .binary64 (.zero s)) (.zero s) := by
  cases u with
  | notANumber | infinity t => exact Or.inl rfl
  | zero t | finite t m e hm => exact Or.inr (.zeros _ _)

theorem zero_div_alike (s : Sign) :
    UnpackedFloat.div .binary64 (.zero s) v = .notANumber ∨
      Alike (UnpackedFloat.div .binary64 (.zero s) v) (.zero s) := by
  cases v with
  | notANumber | zero t => exact Or.inl rfl
  | infinity t | finite t m e hm => exact Or.inr (.zeros _ _)

theorem sub_eq_add_neg_unpacked (u v : UnpackedFloat) :
    u.sub .binary64 v = u.add .binary64 v.neg := by
  have happly (s : Sign) (k : Int) : (-s).apply k = -(s.apply k) := by
    cases s with
    | positive => rfl
    | negative => exact (Int.neg_neg k).symm
  cases u <;> cases v <;>
    simp only [UnpackedFloat.sub, UnpackedFloat.add, UnpackedFloat.neg, happly, Int.sub_eq_add_neg]

theorem add_comm_unpacked (u v : UnpackedFloat) : u.add .binary64 v = v.add .binary64 u := by
  cases u with
  | notANumber => cases v <;> rfl
  | infinity s =>
    cases v with
    | infinity t => cases s <;> cases t <;> rfl
    | _ => rfl
  | zero s =>
    cases v with
    | zero t => cases s <;> cases t <;> rfl
    | _ => rfl
  | finite s m e hm =>
    cases v with
    | finite t n f hn => simp only [UnpackedFloat.add, min_comm e f, Int.add_comm]
    | _ => rfl

theorem mul_comm_unpacked (u v : UnpackedFloat) : u.mul .binary64 v = v.mul .binary64 u := by
  have hsign (s t : Sign) : s * t = t * s := by
    cases s <;> cases t <;> rfl
  cases u <;> cases v <;> simp only [UnpackedFloat.mul, hsign, Nat.mul_comm, Int.add_comm]

/-- The number one with the given sign. -/
def signedOne (s : Sign) : UnpackedFloat := .finite s (2 ^ 52) (-52) (by decide)

/-- The number times the number one with the given sign. -/
def withSign : Sign → UnpackedFloat → UnpackedFloat
  | .positive, u => u
  | .negative, u => u.neg

theorem mul_signedOne (hu : IsCanonical u) (s : Sign) :
    u.mul .binary64 (signedOne s) = withSign s u := by
  cases u with
  | notANumber => cases s <;> rfl
  | infinity t | zero t => cases s <;> cases t <;> rfl
  | finite t m e hm =>
    have hround := roundWithAccuracy_exact hm (t * s) 52 hu
    refine Eq.trans hround ?_
    cases s <;> cases t <;> rfl

theorem divCore_one {m : Nat} {e : Int}
    (h : Format.binary64.targetExponent (totalExponent m e) = e) :
    ∃ k : Nat, UnpackedFloat.divCore .binary64 m e (2 ^ 52) (-52) = (m * 2 ^ k, e - k, .exact) := by
  have hone : totalExponent (2 ^ 52) (-52) = 1 := by
    rw [totalExponent, Nat.log2_two_pow]
    rfl
  rw [targetExponent_eq] at h
  -- the quotient is calculated with one place more unless the exponent is the least one
  obtain ⟨k, hk⟩ : ∃ k : Nat, min (e - -52) (Format.binary64.targetExponent
      (totalExponent m e - totalExponent (2 ^ 52) (-52))) = e - k := by
    rw [targetExponent_eq, hone]
    by_cases hmin : e = -1074
    · exact ⟨0, by omega⟩
    · exact ⟨1, by omega⟩
  have hamount : (e - -52 - (e - (k : Int))).toNat = k + 52 := by omega
  have hshift : m <<< (k + 52) = m * 2 ^ k * 2 ^ 52 := by
    rw [Nat.shiftLeft_eq, Nat.pow_add, Nat.mul_assoc]
  have hquotient : m * 2 ^ k * 2 ^ 52 / 2 ^ 52 = m * 2 ^ k :=
    Nat.mul_div_cancel _ (Nat.two_pow_pos 52)
  have hrest : m * 2 ^ k * 2 ^ 52 % 2 ^ 52 = 0 := Nat.mul_mod_left _ _
  refine ⟨k, ?_⟩
  simp only [UnpackedFloat.divCore, hk, hamount, hshift, hquotient, hrest]
  rfl

theorem div_signedOne (hu : IsCanonical u) (s : Sign) :
    u.div .binary64 (signedOne s) = withSign s u := by
  cases u with
  | notANumber => cases s <;> rfl
  | infinity t | zero t => cases s <;> cases t <;> rfl
  | finite t m e hm =>
    obtain ⟨k, hk⟩ := divCore_one (m := m) (e := e) hu
    have hround := roundWithAccuracy_exact hm (t / s) k hu
    rw [signedOne, UnpackedFloat.div, hk]
    refine Eq.trans hround ?_
    cases s <;> cases t <;> rfl

/-! ### Machine numbers -/

theorem float_beq_iff :
    (x == y) = true ↔ x.toModel.unpack ≠ .notANumber ∧ Alike x.toModel.unpack y.toModel.unpack := by
  have hbeq := UnpackedFloat.beq_iff_ne_notANumber_and_eq x.toModel.unpack y.toModel.unpack
  constructor
  · intro h
    obtain ⟨hx, -, heq | ⟨hx', hy'⟩ | ⟨hx', hy'⟩⟩ := hbeq.mp h
    · exact ⟨hx, heq ▸ .refl _⟩
    · exact ⟨hx, hx' ▸ hy' ▸ .zeros _ _⟩
    · exact ⟨hx, hx' ▸ hy' ▸ .zeros _ _⟩
  · rintro ⟨hx, halike⟩
    refine hbeq.mpr ?_
    generalize x.toModel.unpack = u at hx halike ⊢
    generalize y.toModel.unpack = v at halike ⊢
    cases halike with
    | refl u => exact ⟨hx, hx, Or.inl rfl⟩
    | zeros s t => cases s <;> cases t <;> simp

theorem float_isNaN_iff : x.isNaN = true ↔ x.toModel.unpack = .notANumber :=
  UnpackedFloat.isNaN_iff

theorem float_beq_refl (hx : x.isNaN = false) : x == x := by
  refine float_beq_iff.mpr ⟨fun hnan => ?_, .refl _⟩
  rw [float_isNaN_iff.mpr hnan] at hx
  nomatch hx

theorem float_isNaN_of_beq (h : x == y) : x.isNaN = false :=
  Bool.eq_false_iff.mpr fun hnan => (float_beq_iff.mp h).1 (float_isNaN_iff.mp hnan)

theorem float_beq_symm (h : x == y) : y == x := by
  obtain ⟨hx, halike⟩ := float_beq_iff.mp h
  refine float_beq_iff.mpr ⟨fun hy => ?_, halike.symm⟩
  rw [hy] at halike
  generalize x.toModel.unpack = u at hx halike
  cases halike
  exact hx rfl

theorem float_beq_trans {z : Float} (hxy : x == y) (hyz : y == z) : x == z := by
  obtain ⟨hx, hxy⟩ := float_beq_iff.mp hxy
  exact float_beq_iff.mpr ⟨hx, hxy.trans (float_beq_iff.mp hyz).2⟩

/-- Machine numbers compare equal if what was packed is alike. -/
theorem float_beq_of_alike (hx : x.toModel.unpack = repack u) (hy : y.toModel.unpack = repack v)
    (h : Alike u v) (hnum : x.isNaN = false) : x == y := by
  refine float_beq_iff.mpr ⟨fun hnan => ?_, ?_⟩
  · rw [float_isNaN_iff.mpr hnan] at hnum
    nomatch hnum
  · rw [hx, hy]
    exact h.repack

theorem isNaN_of_repack (hx : x.toModel.unpack = repack .notANumber) : x.isNaN = true := by
  rw [float_isNaN_iff, hx]
  exact UnpackedFloat.unpack_packedNaN

theorem unpack_one : (1 : Float).toModel.unpack = signedOne .positive := rfl

theorem unpack_negOne : (-1 : Float).toModel.unpack = signedOne .negative := by
  rw [unpack_neg, unpack_one]
  rfl

theorem unpack_zero : (0 : Float).toModel.unpack = .zero .positive :=
  UnpackedFloat.unpack_packedZero

theorem unpack_zero_repack : (0 : Float).toModel.unpack = repack (.zero .positive) := by
  rw [← unpack_zero, repack_unpack]

/-- A machine number packed from the undefined value or from a zero is zero if it is defined. -/
theorem float_beq_zero (hx : x.toModel.unpack = repack u)
    (h : u = .notANumber ∨ Alike u (.zero .positive)) (hnum : x.isNaN = false) : x == 0 := by
  rcases h with rfl | halike
  · rw [isNaN_of_repack hx] at hnum
    nomatch hnum
  · exact float_beq_of_alike hx unpack_zero_repack halike hnum

theorem float_sub_eq (x y : Float) : x - y = x + -y := by
  apply eq_of_unpack
  change repack _ = repack (x.toModel.unpack.add .binary64 (-y).toModel.unpack)
  rw [unpack_neg, sub_eq_add_neg_unpacked]

theorem float_add_comm (x y : Float) : x + y = y + x := by
  apply eq_of_unpack
  change repack _ = repack _
  rw [add_comm_unpacked]

theorem float_mul_comm (x y : Float) : x * y = y * x := by
  apply eq_of_unpack
  change repack _ = repack _
  rw [mul_comm_unpacked]

theorem float_add_congr (hx : x == x') (hy : y == y') (h : (x + y).isNaN = false) :
    x + y == x' + y' :=
  float_beq_of_alike rfl rfl ((float_beq_iff.mp hx).2.add (float_beq_iff.mp hy).2) h

theorem float_mul_congr (hx : x == x') (hy : y == y') (h : (x * y).isNaN = false) :
    x * y == x' * y' :=
  float_beq_of_alike rfl rfl ((float_beq_iff.mp hx).2.mul (float_beq_iff.mp hy).2) h

theorem float_div_congr (hx : x == x') (h : (x / y).isNaN = false) : x / y == x' / y :=
  float_beq_of_alike rfl rfl ((float_beq_iff.mp hx).2.div _) h

theorem float_add_zero (hx : x.isNaN = false) : x + 0 == x := by
  have hsum :
      Alike (x.toModel.unpack.add .binary64 (0 : Float).toModel.unpack) x.toModel.unpack := by
    rw [unpack_zero]
    exact add_zero_alike _ _
  exact float_beq_symm (float_beq_of_alike (repack_unpack x).symm rfl hsum.symm hx)

theorem float_mul_zero (h : (x * 0).isNaN = false) : x * 0 == 0 := by
  have hproduct : (x * 0).toModel.unpack =
      repack (x.toModel.unpack.mul .binary64 (0 : Float).toModel.unpack) := rfl
  rw [unpack_zero] at hproduct
  exact float_beq_zero hproduct (mul_zero_alike .positive) h

theorem float_zero_div (h : (0 / x).isNaN = false) : 0 / x == 0 := by
  have hquotient : (0 / x).toModel.unpack =
      repack ((0 : Float).toModel.unpack.div .binary64 x.toModel.unpack) := rfl
  rw [unpack_zero] at hquotient
  exact float_beq_zero hquotient (zero_div_alike .positive) h

theorem isCanonical_toModel (x : Float) : IsCanonical x.toModel.unpack := isCanonical_unpack _

theorem float_mul_one (x : Float) : x * 1 = x := by
  apply eq_of_unpack
  change repack (x.toModel.unpack.mul .binary64 (1 : Float).toModel.unpack) = _
  rw [unpack_one, mul_signedOne (isCanonical_toModel x)]
  exact repack_unpack x

theorem float_mul_negOne (x : Float) : x * -1 = -x := by
  apply eq_of_unpack
  change repack (x.toModel.unpack.mul .binary64 (-1 : Float).toModel.unpack) = _
  rw [unpack_negOne, mul_signedOne (isCanonical_toModel x)]
  rfl

theorem float_div_one (x : Float) : x / 1 = x := by
  apply eq_of_unpack
  change repack (x.toModel.unpack.div .binary64 (1 : Float).toModel.unpack) = _
  rw [unpack_one, div_signedOne (isCanonical_toModel x)]
  exact repack_unpack x

theorem float_div_negOne (x : Float) : x / -1 = -x := by
  apply eq_of_unpack
  change repack (x.toModel.unpack.div .binary64 (-1 : Float).toModel.unpack) = _
  rw [unpack_negOne, div_signedOne (isCanonical_toModel x)]
  rfl

/-! ### Machine numbers with a signed undefined value -/

theorem exists_of_beq {a b : Double} (h : a == b) :
    ∃ x hx y hy, a = number x hx ∧ b = number y hy ∧ x == y := by
  cases a with
  | nan s => nomatch h
  | number x hx =>
    cases b with
    | nan s => nomatch h
    | number y hy => exact ⟨x, hx, y, hy, rfl, rfl, h⟩

theorem exists_of_not_isNaN {a : Double} (h : Scalar.isNaN a = false) :
    ∃ x hx, a = number x hx := by
  cases a with
  | nan s => nomatch h
  | number x hx => exact ⟨x, hx, rfl⟩

theorem isNaN_ofFloat (x : Float) : Scalar.isNaN (ofFloat x) = x.isNaN := by
  unfold ofFloat
  split_ifs with hx
  · exact hx.symm
  · exact (Bool.eq_false_iff.mpr hx).symm

theorem ofFloat_beq (h : x == y) : ofFloat x == ofFloat y := by
  rw [ofFloat_eq (float_isNaN_of_beq h), ofFloat_eq (float_isNaN_of_beq (float_beq_symm h))]
  exact h

theorem ofFloat_beq_number (hy : y.isNaN = false) (h : x == y) : ofFloat x == number y hy := by
  rw [ofFloat_eq (float_isNaN_of_beq h)]
  exact h

theorem isNaN_lift₂ (f : Float → Float → Float) {a b : Double}
    (h : Scalar.isNaN a ∨ Scalar.isNaN b) : Scalar.isNaN (lift₂ f a b) := by
  cases a with
  | nan s => rfl
  | number x hx =>
    cases b with
    | nan s => rfl
    | number y hy => rcases h with h | h <;> nomatch h

theorem exists_of_lift₂ {f : Float → Float → Float} {a b : Double}
    (h : Scalar.isNaN (lift₂ f a b) = false) :
    ∃ x hx y hy, a = number x hx ∧ b = number y hy ∧ (f x y).isNaN = false := by
  cases a with
  | nan s => nomatch h
  | number x hx =>
    cases b with
    | nan s => nomatch h
    | number y hy => exact ⟨x, hx, y, hy, rfl, rfl, (isNaN_ofFloat _).symm.trans h⟩

/-- An equation of machine numbers is one of the numbers that hold them. -/
theorem ofFloat_beq_of_eq (hy : y.isNaN = false) (h : x = y) : ofFloat x == number y hy := by
  have hxy : x == y := by
    rw [h]
    exact float_beq_refl hy
  exact ofFloat_beq_number hy hxy

theorem lift₂_congr {f : Float → Float → Float} {a a' b b' : Double}
    (hf : ∀ {x x' y y' : Float}, x == x' → y == y' → (f x y).isNaN = false → f x y == f x' y')
    (ha : a == a') (hb : b == b') (h : Scalar.isNaN (lift₂ f a b) = false) :
    lift₂ f a b == lift₂ f a' b' := by
  obtain ⟨x, hx, x', hx', rfl, rfl, hxx'⟩ := exists_of_beq ha
  obtain ⟨y, hy, y', hy', rfl, rfl, hyy'⟩ := exists_of_beq hb
  exact ofFloat_beq (hf hxx' hyy' ((isNaN_ofFloat _).symm.trans h))

theorem lift₂_comm {f : Float → Float → Float} {a b : Double} (hf : ∀ x y, f x y = f y x)
    (h : Scalar.isNaN (lift₂ f a b) = false) : lift₂ f a b == lift₂ f b a := by
  obtain ⟨x, hx, y, hy, rfl, rfl, hnum⟩ := exists_of_lift₂ h
  have hcomm : f x y == f y x := by
    rw [hf y x]
    exact float_beq_refl hnum
  exact ofFloat_beq hcomm

theorem float_zero_isNaN : (0 : Float).isNaN = false := by decide +kernel

theorem zero_eq : (Scalar.zero : Double) = number 0 float_zero_isNaN := ofFloat_eq _

theorem one_eq : (Scalar.one : Double) = number 1 (by decide +kernel) := ofFloat_eq _

theorem negOne_eq : (-Scalar.one : Double) = number (-1) (by decide +kernel) := by
  rw [one_eq, neg_number]

end Double

open Double in
instance : LawfulRounding Double where
  beq_refl a h := by
    obtain ⟨x, hx, rfl⟩ := exists_of_not_isNaN h
    exact float_beq_refl hx
  beq_symm a b h := by
    obtain ⟨x, hx, y, hy, rfl, rfl, hxy⟩ := exists_of_beq h
    exact float_beq_symm hxy
  beq_trans a b c hab hbc := by
    obtain ⟨x, hx, y, hy, rfl, rfl, hxy⟩ := exists_of_beq hab
    obtain ⟨_, _, z, hz, heq, rfl, hyz⟩ := exists_of_beq hbc
    obtain ⟨rfl⟩ := number.inj heq
    exact float_beq_trans hxy hyz
  isNaN_of_beq a b h := by
    obtain ⟨x, hx, y, hy, rfl, rfl, hxy⟩ := exists_of_beq h
    rfl
  isNaN_nan := rfl
  isNaN_add _ _ := isNaN_lift₂ _
  isNaN_sub _ _ := isNaN_lift₂ _
  isNaN_mul _ _ := isNaN_lift₂ _
  isNaN_div _ _ := isNaN_lift₂ _
  add_congr a a' b b' ha hb h := lift₂_congr float_add_congr ha hb h
  mul_congr a a' b b' ha hb h := lift₂_congr float_mul_congr ha hb h
  div_congr a a' b ha h := by
    obtain ⟨x, hx, x', hx', rfl, rfl, hxx'⟩ := exists_of_beq ha
    obtain ⟨_, _, y, hy, _, rfl, hnum⟩ := exists_of_lift₂ h
    exact ofFloat_beq (float_div_congr hxx' ((isNaN_ofFloat _).symm.trans h))
  sub_eq a b h := by
    obtain ⟨y, hy, rfl⟩ := exists_of_not_isNaN h
    rw [neg_number]
    cases a with
    | nan s => rfl
    | number x hx => exact congrArg ofFloat (float_sub_eq x y)
  add_comm a b h := lift₂_comm float_add_comm h
  mul_comm a b h := lift₂_comm float_mul_comm h
  add_zero a h := by
    obtain ⟨x, hx, rfl⟩ := exists_of_not_isNaN h
    rw [zero_eq]
    exact ofFloat_beq_number hx (float_add_zero hx)
  one_add_negOne := by decide +kernel
  negOne_add_negOne := by decide +kernel
  mul_zero a h := by
    rw [zero_eq] at h ⊢
    obtain ⟨x, hx, _, _, rfl, heq, hnum⟩ := exists_of_lift₂ h
    obtain rfl := number.inj heq
    exact ofFloat_beq_number _ (float_mul_zero hnum)
  mul_one a h := by
    obtain ⟨x, hx, rfl⟩ := exists_of_not_isNaN h
    rw [one_eq]
    exact ofFloat_beq_of_eq hx (float_mul_one x)
  mul_negOne a h := by
    obtain ⟨x, hx, rfl⟩ := exists_of_not_isNaN h
    rw [negOne_eq, neg_number]
    exact ofFloat_beq_of_eq ((float_isNaN_neg x).trans hx) (float_mul_negOne x)
  div_one a h := by
    obtain ⟨x, hx, rfl⟩ := exists_of_not_isNaN h
    rw [one_eq]
    exact ofFloat_beq_of_eq hx (float_div_one x)
  div_negOne a h := by
    obtain ⟨x, hx, rfl⟩ := exists_of_not_isNaN h
    rw [negOne_eq, neg_number]
    exact ofFloat_beq_of_eq ((float_isNaN_neg x).trans hx) (float_div_negOne x)
  zero_div a h := by
    rw [zero_eq] at h ⊢
    obtain ⟨_, _, x, hx, heq, rfl, hnum⟩ := exists_of_lift₂ h
    obtain rfl := number.inj heq
    exact ofFloat_beq_number _ (float_zero_div hnum)

end FormulaCalculus
