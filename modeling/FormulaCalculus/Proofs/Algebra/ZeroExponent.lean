import FormulaCalculus.Proofs.Alike.Broadcasting
import FormulaCalculus.Proofs.Scalar.ZeroPower

/-!
Powers with exponent zero. Wherever the exponent of a power is zero, the power is one, whatever the
base is there and however the zero is written. The undefined symbol as base is kept out of this by
everything but the symbol for zero: raised to a tensor it is undefined, whatever the entries are.
-/

namespace FormulaCalculus

open LawfulRounding LawfulZeroPower
open Shape (join?)

variable {α : Type} [Scalar α]

namespace ComplexNumber

/-- Whether an entry of a power is one if the entry of the exponent is zero. -/
def OneAtZero (exponent power : ComplexNumber α) : Prop := exponent.isZero = true → power == one

variable [LawfulRounding α] {z w : ComplexNumber α} {x : α}

theorem ofReal_beq_one (h : x == Scalar.one) : ofReal x == one :=
  Bool.and_eq_true_iff.mpr ⟨h, LawfulScalar.zero_beq_zero⟩

theorem one_beq_one : (one : ComplexNumber α) == one := ofReal_beq_one (beq_refl _ isNaN_one)

/-- What is alike to one is one. -/
theorem Alike.beq_one (h : z.Alike w) (hw : w == one) : z == one := by
  obtain ⟨hre, him⟩ := Bool.and_eq_true_iff.mp hw
  apply Bool.and_eq_true_iff.mpr
  constructor
  · rwa [h.re.beq_eq]
  · rwa [h.im.beq_eq]

variable [LawfulZeroPower α]

theorem powValue_of_isZero (z : ComplexNumber α) (hw : w.isZero = true) :
    Number.powValue z w == one := by
  unfold Number.powValue
  split_ifs
  · exact ofReal_beq_one (pow_zero _ _ (Bool.and_eq_true_iff.mp hw).1)
  · rw [pow, if_pos hw]
    exact one_beq_one

theorem oneAtZero_ofReal (x y : α) : OneAtZero (ofReal y) (ofReal (Scalar.pow x y)) :=
  fun hy => ofReal_beq_one (pow_zero x y (Bool.and_eq_true_iff.mp hy).1)

end ComplexNumber

open ComplexNumber (OneAtZero ofReal_beq_one one_beq_one oneAtZero_ofReal)

namespace Constant

variable [LawfulRounding α] [LawfulZeroPower α] {c d : Constant α} {n : Number α}

theorem pow_of_isZero (m : Number α) (hn : n.value.isZero = true) (u : Shape) :
    (m.pow n u).value == .one := by
  have hpower := ComplexNumber.powValue_of_isZero m.value hn
  exact (Number.value_ofNumber_alike _).beq_one hpower

theorem powOfZeroIn_of_hasZeroValue (hd : d.hasZeroValue = true) (u : Shape) :
    (d.powOfZeroIn u).value == .one := by
  cases d with
  | zero s => exact one_beq_one
  | number n =>
    have hre : n.value.re == Scalar.zero := (Bool.and_eq_true_iff.mp hd).1
    have hlt : ¬ Scalar.lt Scalar.zero n.value.re = true := by
      rw [not_zero_lt _ hre]
      exact Bool.false_ne_true
    have hpower : (number n).powOfZeroIn u = unity u := by
      rw [powOfZeroIn, if_neg hlt]
      exact if_pos hd
    rw [hpower]
    exact one_beq_one
  | _ => exact absurd hd Bool.false_ne_true

/-- A constant to the power zero is one; an undefined one if the zero is the symbol. -/
theorem powIn_of_hasZeroValue (hd : d.hasZeroValue = true)
    (hc : (Value.symbol c).IsNan → d.isZero = true) (u : Shape) : (c.powIn u d).value == .one := by
  unfold powIn
  split_ifs with hzero
  · exact powOfZeroIn_of_hasZeroValue hd u
  cases d with
  | zero s =>
    cases c with
    | zero r => exact absurd rfl hzero
    | _ => exact one_beq_one
  | number n =>
    cases c with
    | zero r => exact absurd rfl hzero
    | unity r => exact one_beq_one
    | negUnity r => exact pow_of_isZero _ hd u
    | nan r => nomatch hc ⟨r, rfl⟩
    | number m => exact pow_of_isZero m hd u
  | _ => exact absurd hd Bool.false_ne_true

end Constant

/-- What is related to every element of a list of the same length. -/
theorem forall₂_of_forall_mem_right {β γ : Type} {R : β → γ → Prop} {l : List β} {m : List γ}
    (hlength : l.length = m.length) (h : ∀ y ∈ m, ∀ x, R x y) : List.Forall₂ R l m :=
  List.forall₂_iff_zip.mpr ⟨hlength, fun hxy => h _ (List.of_mem_zip hxy).2 _⟩

/-- Each element of a list with what a function of it and another element is. -/
theorem forall₂_zipWith_right {β γ δ : Type} {R : γ → δ → Prop} {f : β → γ → δ}
    (hf : ∀ x y, R y (f x y)) {l : List β} {m : List γ} (hlength : l.length = m.length) :
    List.Forall₂ R m (List.zipWith f l m) := by
  induction l generalizing m with
  | nil =>
    rw [List.length_eq_zero_iff.mp hlength.symm]
    exact .nil
  | cons x l ih =>
    cases m with
    | nil => nomatch hlength
    | cons y m => exact .cons (hf x y) (ih (Nat.succ.inj hlength))

omit [Scalar α] in
/-- What a short cut that maps the entries of a tensor gives. -/
theorem Value.exists_of_combineWith {j : Except (AlgebraError α) Shape} {a : Tensor α} {g : α → α}
    {c : Constant α} {r : Value α} (h : (j >>= fun _ => a.combineWith g c) = .ok r) :
    ∃ b : Tensor α, r = .tensor b ∧ a.shape.StretchesTo b.shape ∧
      b.data = (a.entriesIn b.shape).map g := by
  cases stretchesTo_of_combineWith h with
  | @tensor _ b hstretch =>
    have hshape : a.shape.StretchesTo b.shape := hstretch.shape
    exact ⟨b, rfl, hshape, by rw [hstretch.data, Tensor.entriesIn_map g hshape]⟩

namespace BinaryFn

variable [LawfulRounding α] [LawfulZeroPower α] {a b : Tensor α} {c d : Constant α}
  {v w r : Value α}

omit [LawfulRounding α] [LawfulZeroPower α] in
/-- A power all entries of which are one. -/
theorem oneAtZero_of_forall (hw : w.shape.StretchesTo r.shape) (h : ∀ z ∈ r.entries, z == .one) :
    List.Forall₂ OneAtZero (w.numbers.entriesIn r.shape) r.entries := by
  apply forall₂_of_forall_mem_right
  · rw [Value.length_entriesIn_numbers hw, Value.length_entries]
  · exact fun z hz _ _ => h z hz

omit [LawfulRounding α] [LawfulZeroPower α] in
theorem beq_one_of_mem_symbol {e : Constant α} (he : e.value == .one) :
    ∀ z ∈ (Value.symbol e).entries, z == .one := by
  intro z hz
  rwa [List.eq_of_mem_replicate hz]

/-- A tensor to the power zero is one in every place. -/
theorem entries_tensor_pow (hd : d.hasZeroValue = true)
    (h : pow.onValues (.tensor a) (.symbol d) = .ok r) : ∀ z ∈ r.entries, z == .one := by
  cases d with
  | zero s =>
    obtain ⟨u, -, h⟩ := exists_of_bind_eq_ok h
    obtain rfl := Except.ok.inj h
    exact beq_one_of_mem_symbol one_beq_one
  | number n =>
    have hre : n.value.re == Scalar.zero := (Bool.and_eq_true_iff.mp hd).1
    have hreal : (Constant.number n).IsReal := (Bool.and_eq_true_iff.mp hd).2
    have hpart : Value.realPart pow.name (.number n) = .ok n.value.re :=
      realPart_of_isReal hreal pow.name
    change (Tensor.joinShapes a.shape (Constant.number n).shape >>= fun _ =>
      Value.realPart pow.name (.number n) >>= fun y =>
        a.combineWith (fun x => Scalar.pow x y) (.number n)) = .ok r at h
    rw [hpart] at h
    obtain ⟨q, rfl, -, hdata⟩ := Value.exists_of_combineWith h
    intro z hz
    rw [Value.entries, hdata, List.map_map] at hz
    obtain ⟨x, -, rfl⟩ := List.mem_map.mp hz
    exact ofReal_beq_one (pow_zero _ _ hre)
  | _ => exact absurd hd Bool.false_ne_true

/-- A constant to the power of a tensor is the symbol for one, or the power entry by entry. -/
theorem entries_pow_tensor (hc : ¬ (Value.symbol c).IsNan)
    (h : pow.onValues (.symbol c) (.tensor b) = .ok r) :
    List.Forall₂ OneAtZero ((Value.tensor b).numbers.entriesIn r.shape) r.entries := by
  -- without a short cut the real part of the base meets every entry of the exponent
  have hentries (h : (Tensor.joinShapes c.shape b.shape >>= fun _ =>
      Value.realPart pow.name c >>= fun x =>
        b.combineWith (fun y => Scalar.pow x y) c) = .ok r) :
      List.Forall₂ OneAtZero ((Value.tensor b).numbers.entriesIn r.shape) r.entries := by
    obtain ⟨s, hs, h⟩ := exists_of_bind_eq_ok h
    obtain ⟨x, hx, h⟩ := exists_of_bind_eq_ok h
    obtain ⟨q, rfl, hshape, hdata⟩ := Value.exists_of_combineWith (j := .ok s) h
    change List.Forall₂ OneAtZero ((b.map ComplexNumber.ofReal).entriesIn q.shape)
      (q.data.map ComplexNumber.ofReal)
    rw [Tensor.entriesIn_map _ hshape, hdata, List.map_map, List.forall₂_map_left_iff,
      List.forall₂_map_right_iff, List.forall₂_same]
    exact fun y _ => oneAtZero_ofReal _ y
  cases c with
  | unity s =>
    have hjoin := shape_onValues h
    obtain ⟨u, -, h⟩ := exists_of_bind_eq_ok h
    obtain rfl := Except.ok.inj h
    exact oneAtZero_of_forall (Shape.join?_eq_some hjoin).2 (beq_one_of_mem_symbol one_beq_one)
  | nan s => exact absurd ⟨s, rfl⟩ hc
  | zero s | negUnity s | number n => exact hentries h

theorem entries_tensor_pow_tensor (h : pow.onValues (.tensor a) (.tensor b) = .ok r) :
    List.Forall₂ OneAtZero ((Value.tensor b).numbers.entriesIn r.shape) r.entries := by
  obtain ⟨q, hq, h⟩ := exists_of_bind_eq_ok h
  obtain rfl := Except.ok.inj h
  obtain ⟨hjoin, -, hdata⟩ := Tensor.of_zipWith_eq_ok hq
  obtain ⟨ha, hb⟩ := Shape.join?_eq_some hjoin
  have hlength : (a.entriesIn q.shape).length = (b.entriesIn q.shape).length := by
    rw [Tensor.length_entriesIn_of_stretchesTo ha, Tensor.length_entriesIn_of_stretchesTo hb]
  change List.Forall₂ OneAtZero ((b.map ComplexNumber.ofReal).entriesIn q.shape)
    (q.data.map ComplexNumber.ofReal)
  rw [Tensor.entriesIn_map _ hb, hdata, List.forall₂_map_left_iff, List.forall₂_map_right_iff]
  exact forall₂_zipWith_right (f := Scalar.pow) (fun x y => oneAtZero_ofReal x y) hlength

theorem entries_constant_pow (hd : d.hasZeroValue = true)
    (hc : (Value.symbol c).IsNan → d.isZero = true)
    (h : pow.onValues (.symbol c) (.symbol d) = .ok r) : ∀ z ∈ r.entries, z == .one := by
  obtain ⟨e, he, h⟩ := exists_of_bind_eq_ok h
  obtain rfl := Except.ok.inj h
  obtain ⟨u, -, he⟩ := exists_of_bind_eq_ok he
  obtain rfl := Except.ok.inj he
  exact beq_one_of_mem_symbol (Constant.powIn_of_hasZeroValue hd hc u)

/-- In every place where the exponent is zero, a power is one. The exponent may be a tensor or a
constant with value zero, and only the undefined symbol as base asks for the symbol for zero. That
symbol raised to a tensor is the undefined symbol. -/
theorem pow_zeroExponent (hw : ∀ d, w = .symbol d → d.hasZeroValue = true)
    (h : pow.onValues v w = .ok r) :
    join? v.shape w.shape = some r.shape ∧
      ((v.IsNan → w.isZero = true) →
        List.Forall₂ OneAtZero (w.numbers.entriesIn r.shape) r.entries) ∧
      ∀ s b, v = .symbol (.nan s) → w = .tensor b → r = .symbol (.nan r.shape) := by
  have hjoin := shape_onValues h
  have hstretch := (Shape.join?_eq_some hjoin).2
  refine ⟨hjoin, fun hnan => ?_, ?_⟩
  · cases v with
    | tensor a =>
      cases w with
      | tensor b => exact entries_tensor_pow_tensor h
      | symbol d => exact oneAtZero_of_forall hstretch (entries_tensor_pow (hw d rfl) h)
    | symbol c =>
      cases w with
      | tensor b => exact entries_pow_tensor (fun hc => nomatch hnan hc) h
      | symbol d => exact oneAtZero_of_forall hstretch (entries_constant_pow (hw d rfl) hnan h)
  · rintro s b rfl rfl
    obtain ⟨u, -, h⟩ := exists_of_bind_eq_ok h
    obtain rfl := Except.ok.inj h
    rfl

/-- The undefined number and two, raised to zero and one: over the rational numbers, and over machine
numbers if the machine's power function has the law. -/
theorem pow_zeroExponent_tensors :
    let v (α : Type) [Scalar α] : Value α := .tensor (Tensor.ofList [Scalar.nan, Scalar.two])
    let w (α : Type) [Scalar α] : Value α := .tensor (Tensor.ofList [Scalar.zero, Scalar.one])
    ((∀ d, w Rational = .symbol d → d.hasZeroValue = true) ∧
      ∃ r, pow.onValues (v Rational) (w Rational) = .ok r ∧ r.shape = [2] ∧
        List.Forall₂ OneAtZero ((w Rational).numbers.entriesIn r.shape) r.entries) ∧
    ((∀ x y : Float, y == 0 → Float.pow x y == 1) →
      ∃ r, pow.onValues (v Double) (w Double) = .ok r ∧ r.shape = [2] ∧
        List.Forall₂ OneAtZero ((w Double).numbers.entriesIn r.shape) r.entries) := by
  intro v w
  have hw (α : Type) [Scalar α] : ∀ d, w α = .symbol d → d.hasZeroValue = true :=
    fun d h => nomatch h
  have hv (α : Type) [Scalar α] : ¬ (v α).IsNan := fun ⟨_, h⟩ => nomatch h
  have hpower (α : Type) [Scalar α] : ∃ r, pow.onValues (v α) (w α) = .ok r ∧ r.shape = [2] := by
    let a : Tensor α := Tensor.ofList [Scalar.nan, Scalar.two]
    let b : Tensor α := Tensor.ofList [Scalar.zero, Scalar.one]
    have hjoin : join? a.shape b.shape = some [2] := rfl
    obtain ⟨q, hq, hshape, -⟩ :=
      Tensor.exists_zipWith (ε := α) (Scalar.pow : α → α → α) hjoin (by decide)
    have hr : pow.onValues (v α) (w α) = .ok (.tensor q) :=
      congrArg (· >>= fun q => Except.ok (Value.tensor q)) hq
    exact ⟨.tensor q, hr, hshape⟩
  constructor
  · obtain ⟨r, hr, hshape⟩ := hpower Rational
    have hentries := (pow_zeroExponent (hw Rational) hr).2.1 fun h => absurd h (hv Rational)
    exact ⟨hw Rational, r, hr, hshape, hentries⟩
  · intro hpow
    have := Double.lawfulZeroPower hpow
    obtain ⟨r, hr, hshape⟩ := hpower Double
    have hentries := (pow_zeroExponent (hw Double) hr).2.1 fun h => absurd h (hv Double)
    exact ⟨r, hr, hshape, hentries⟩

/-- The undefined symbol to the power of a tensor with the entry zero: the entry of the power is
not one. -/
theorem nan_pow_zeros :
    let w : Value Double := .tensor (Tensor.replicate [1] Scalar.zero)
    let r : Value Double := .symbol (.nan [1])
    pow.onValues (.symbol (.nan [1])) w = .ok r ∧
      ¬ List.Forall₂ OneAtZero (w.numbers.entriesIn r.shape) r.entries := by
  intro w r
  refine ⟨rfl, fun h => ?_⟩
  cases h with
  | cons hone _ =>
    have hzero : (ComplexNumber.ofReal (Scalar.zero : Double)).isZero = true := by
      decide +kernel
    have hundefined : ((.ofReal Scalar.nan : ComplexNumber Double) == .one) = false := by
      decide +kernel
    exact Bool.eq_false_iff.mp hundefined (hone hzero)

end BinaryFn

end FormulaCalculus
