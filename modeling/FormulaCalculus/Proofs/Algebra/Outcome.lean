import FormulaCalculus.Proofs.Algebra.Uniform
import FormulaCalculus.Proofs.Scalar.Double

/-!
How a function of two values ends. The shapes are joined first, a complex constant is kept out of
a tensor next, and only a result that has to be built as a tensor is limited by what a tensor can
hold; a result that is known as a symbol is not.
-/

namespace FormulaCalculus

open Shape (join?)

variable {α : Type} [Scalar α]

/-- The ends a function of two values can come to. -/
inductive Outcome where
  | succeeds (shape : Shape)
  | broadcast
  | complexMaterialization
  | unsupported
  | unaddressable
  deriving DecidableEq

omit [Scalar α] in
def Outcome.of : Except (AlgebraError α) (Value α) → Outcome
  | .ok r => .succeeds r.shape
  | .error (.broadcast _ _) => .broadcast
  | .error (.complexMaterialization _ _) => .complexMaterialization
  | .error (.unsupported _) => .unsupported
  | .error (.unaddressable _) => .unaddressable

/-- Whether one value is a tensor and the other a constant with an imaginary part. -/
def Value.meetsComplex : Value α → Value α → Bool
  | .tensor _, .symbol c | .symbol c, .tensor _ => !c.value.isReal
  | .tensor _, .tensor _ | .symbol _, .symbol _ => false

omit [Scalar α] in
def Constant.isNan : Constant α → Bool
  | .nan _ => true
  | _ => false

namespace BinaryFn

/-- Whether the function is the angle of a point with a defined complex coordinate. -/
def isComplexAngle : BinaryFn → Value α → Value α → Bool
  | atan2, .symbol c, .symbol d => !c.isNan && !d.isNan && !(c.value.isReal && d.value.isReal)
  | _, _, _ => false

/-- Whether the function is answered by a symbol, so that no tensor is built. -/
def answersSymbol : BinaryFn → Value α → Value α → Bool
  | _, .symbol _, .symbol _ => true
  | _, .tensor _, .symbol (.nan _) | _, .symbol (.nan _), .tensor _ => true
  | mul, .tensor _, .symbol (.zero _) | mul, .symbol (.zero _), .tensor _ => true
  | div, .tensor _, .symbol (.zero _) | pow, .tensor _, .symbol (.zero _) => true
  | div, .symbol (.zero _), .tensor a => a.isDivisor
  | pow, .symbol (.unity _), .tensor _ => true
  | _, _, _ => false

/-- How the function ends, told from the shapes and the constants of its operands. -/
def outcome (f : BinaryFn) (v w : Value α) : Outcome :=
  match join? v.shape w.shape with
  | none => .broadcast
  | some u =>
    if v.meetsComplex w then .complexMaterialization
    else if f.isComplexAngle v w then .unsupported
    else if f.answersSymbol v w || u.isAddressable then .succeeds u
    else .broadcast

/-- The ways in which a function ends, in the order in which they are tried. -/
inductive Ends (f : BinaryFn) (v w : Value α) : Outcome → Prop
  | apart (hjoin : join? v.shape w.shape = none) : Ends f v w .broadcast
  | complex {u : Shape} (hjoin : join? v.shape w.shape = some u)
      (hcomplex : v.meetsComplex w = true) : Ends f v w .complexMaterialization
  | angle {u : Shape} (hjoin : join? v.shape w.shape = some u)
      (hcomplex : v.meetsComplex w = false) (hangle : f.isComplexAngle v w = true) :
      Ends f v w .unsupported
  | result {u : Shape} (hjoin : join? v.shape w.shape = some u)
      (hcomplex : v.meetsComplex w = false) (hangle : f.isComplexAngle v w = false)
      (hheld : f.answersSymbol v w = true ∨ u.isAddressable = true) : Ends f v w (.succeeds u)
  | tooLarge {u : Shape} (hjoin : join? v.shape w.shape = some u)
      (hcomplex : v.meetsComplex w = false) (hangle : f.isComplexAngle v w = false)
      (hsymbol : f.answersSymbol v w = false) (haddressable : u.isAddressable = false) :
      Ends f v w .broadcast

variable {f : BinaryFn} {v w : Value α} {u : Shape}

theorem ends_outcome (f : BinaryFn) (v w : Value α) : f.Ends v w (f.outcome v w) := by
  unfold outcome
  split
  · rename_i hjoin
    exact .apart hjoin
  · rename_i u hjoin
    split_ifs with hcomplex hangle hheld
    · exact .complex hjoin hcomplex
    · exact .angle hjoin (Bool.eq_false_iff.mpr hcomplex) hangle
    · exact .result hjoin (Bool.eq_false_iff.mpr hcomplex) (Bool.eq_false_iff.mpr hangle)
        (Bool.or_eq_true_iff.mp hheld)
    · obtain ⟨hsymbol, haddressable⟩ := Bool.or_eq_false_iff.mp (Bool.eq_false_iff.mpr hheld)
      exact .tooLarge hjoin (Bool.eq_false_iff.mpr hcomplex) (Bool.eq_false_iff.mpr hangle)
        hsymbol haddressable

/-- A function ends in one way only. -/
theorem ends_iff {o : Outcome} : f.Ends v w o ↔ f.outcome v w = o := by
  constructor
  · intro h
    cases h with
    | apart hjoin => rw [outcome, hjoin]
    | complex hjoin hcomplex => simp only [outcome, hjoin, hcomplex, if_true]
    | angle hjoin hcomplex hangle =>
      simp only [outcome, hjoin, hcomplex, hangle, Bool.false_eq_true, if_false, if_true]
    | result hjoin hcomplex hangle hheld =>
      simp only [outcome, hjoin, hcomplex, hangle, Bool.or_eq_true_iff.mpr hheld,
        Bool.false_eq_true, if_false, if_true]
    | tooLarge hjoin hcomplex hangle hsymbol haddressable =>
      simp only [outcome, hjoin, hcomplex, hangle, hsymbol, haddressable, Bool.or_false,
        Bool.false_eq_true, if_false]
  · rintro rfl
    exact ends_outcome f v w

theorem outcome_of_not_join (h : join? v.shape w.shape = none) : f.outcome v w = .broadcast := by
  rw [outcome, h]

omit [Scalar α] in
theorem of_combineWith {a : Tensor α} {c : Constant α} (g : α → α)
    (hu : join? a.shape c.shape = some u) :
    Outcome.of (a.combineWith g c) = if u.isAddressable then .succeeds u else .broadcast := by
  by_cases haddressable : u.isAddressable = true
  · obtain ⟨r, hr, rfl, -⟩ := Tensor.exists_mapIn (ε := α) g hu haddressable
    rw [Tensor.combineWith, hr, if_pos haddressable]
    rfl
  · rw [Tensor.combineWith, Tensor.mapIn_eq_error g hu (Bool.eq_false_iff.mpr haddressable),
      if_neg haddressable]
    rfl

/-- A tensor and a constant, in one order or the other, whose shapes meet. -/
structure Mixes (f : BinaryFn) (v w : Value α) (a : Tensor α) (c : Constant α) (u : Shape) :
    Prop where
  join : join? v.shape w.shape = some u
  tensor_join : join? a.shape c.shape = some u
  meetsComplex : v.meetsComplex w = !c.value.isReal
  isComplexAngle : f.isComplexAngle v w = false

namespace Mixes

variable {a : Tensor α} {c : Constant α}

theorem outcome_eq (h : Mixes f v w a c u) :
    f.outcome v w =
      if c.value.isReal then
        if f.answersSymbol v w || u.isAddressable then .succeeds u else .broadcast
      else .complexMaterialization := by
  rw [outcome, h.join, h.meetsComplex, h.isComplexAngle]
  cases c.value.isReal <;> rfl

theorem of_symbol (h : Mixes f v w a c u) {d : Constant α} (hd : d.shape = u)
    (hc : c.value.isReal = true) (hsymbol : f.answersSymbol v w = true) :
    Outcome.of (.ok (.symbol d) : Except (AlgebraError α) _) = f.outcome v w := by
  rw [h.outcome_eq, if_pos hc, hsymbol, Bool.true_or, if_pos rfl, ← hd]
  rfl

theorem of_tensor (h : Mixes f v w a c u) (g : α → α) (hc : c.value.isReal = true)
    (htensor : f.answersSymbol v w = false) :
    Outcome.of (a.combineWith g c) = f.outcome v w := by
  rw [of_combineWith g h.tensor_join, h.outcome_eq, if_pos hc, htensor, Bool.false_or]

/-- An entrywise function ends by the constant's imaginary part before it stretches the tensor. -/
theorem of_realPart (h : Mixes f v w a c u) (name : String) (g : α → α → α)
    (htensor : f.answersSymbol v w = false) :
    Outcome.of (Value.realPart name c >>= fun x => a.combineWith (g x) c) = f.outcome v w := by
  by_cases hreal : c.value.isReal = true
  · have hpart : Value.realPart name c = .ok c.value.re := by
      rw [Value.realPart, ComplexNumber.asReal?, if_pos hreal]
    rw [hpart]
    exact h.of_tensor (g c.value.re) hreal htensor
  · have hpart : Value.realPart name c = .error (.complexMaterialization c.value name) := by
      rw [Value.realPart, ComplexNumber.asReal?, if_neg hreal]
    rw [hpart, h.outcome_eq, if_neg hreal]
    rfl

end Mixes

variable [LawfulScalar α]

theorem of_onTensorConstant (f : BinaryFn) (a : Tensor α) (c : Constant α) :
    Outcome.of (f.onTensorConstant a c) = f.outcome (.tensor a) (.symbol c) := by
  cases hu : join? a.shape c.shape with
  | none =>
    rw [onTensorConstant, Tensor.joinShapes, hu]
    exact (outcome_of_not_join (v := .tensor a) (w := .symbol c) hu).symm
  | some u =>
    rw [onTensorConstant, Tensor.joinShapes_eq_ok.mpr hu]
    have hmixes : Mixes f (.tensor a) (.symbol c) a c u := ⟨hu, hu, rfl, by cases f <;> rfl⟩
    -- without a short cut the real part of the constant meets every entry
    have hentries := hmixes.of_realPart f.name fun y x => f.real x y
    have hreal (x : α) := ComplexNumber.isReal_ofReal x
    cases c with
    | nan s => cases f <;> exact hmixes.of_symbol rfl (hreal _) rfl
    | zero s =>
      cases f with
      | add | sub => exact hmixes.of_tensor _ (hreal _) rfl
      | mul | div | pow => exact hmixes.of_symbol rfl (hreal _) rfl
      | atan2 => exact hentries rfl
    | unity s =>
      cases f with
      | mul | div | pow => exact hmixes.of_tensor _ (hreal _) rfl
      | add | sub | atan2 => exact hentries rfl
    | negUnity s =>
      cases f with
      | mul | div | pow => exact hmixes.of_tensor _ (hreal _) rfl
      | add | sub | atan2 => exact hentries rfl
    | number n => cases f <;> exact hentries rfl

theorem of_onConstantTensor (f : BinaryFn) (c : Constant α) (b : Tensor α) :
    Outcome.of (f.onConstantTensor c b) = f.outcome (.symbol c) (.tensor b) := by
  cases hu : join? c.shape b.shape with
  | none =>
    rw [onConstantTensor, Tensor.joinShapes, hu]
    exact (outcome_of_not_join (v := .symbol c) (w := .tensor b) hu).symm
  | some u =>
    have hu' : join? b.shape c.shape = some u := by rw [Shape.join?_comm, hu]
    rw [onConstantTensor, Tensor.joinShapes_eq_ok.mpr hu]
    have hmixes : Mixes f (.symbol c) (.tensor b) b c u := ⟨hu, hu', rfl, by cases f <;> rfl⟩
    have hentries := hmixes.of_realPart f.name fun x y => f.real x y
    have hreal (x : α) := ComplexNumber.isReal_ofReal x
    cases c with
    | nan s => cases f <;> exact hmixes.of_symbol rfl (hreal _) rfl
    | zero s =>
      cases f with
      | add | sub => exact hmixes.of_tensor _ (hreal _) rfl
      | mul => exact hmixes.of_symbol rfl (hreal _) rfl
      | div =>
        -- a zero among the divisors leaves the quotients to be calculated
        change Outcome.of (if b.isDivisor then _ else _) = _
        by_cases hdivisor : b.isDivisor = true
        · rw [if_pos hdivisor]
          exact hmixes.of_symbol rfl (hreal _) hdivisor
        · rw [if_neg hdivisor]
          exact hmixes.of_tensor _ (hreal _) (Bool.eq_false_iff.mpr hdivisor)
      | pow | atan2 => exact hentries rfl
    | unity s =>
      cases f with
      | mul => exact hmixes.of_tensor _ (hreal _) rfl
      | pow => exact hmixes.of_symbol rfl (hreal _) rfl
      | add | sub | div | atan2 => exact hentries rfl
    | negUnity s =>
      cases f with
      | mul => exact hmixes.of_tensor _ (hreal _) rfl
      | add | sub | div | pow | atan2 => exact hentries rfl
    | number n => cases f <;> exact hentries rfl

omit [LawfulScalar α] in
theorem of_zipWith (f : BinaryFn) (a b : Tensor α) :
    Outcome.of (f.onValues (.tensor a) (.tensor b)) = f.outcome (.tensor a) (.tensor b) := by
  cases hu : join? a.shape b.shape with
  | none =>
    rw [onValues, Tensor.zipWith, Tensor.joinShapes, hu]
    exact (outcome_of_not_join (v := .tensor a) (w := .tensor b) hu).symm
  | some u =>
    have houtcome : f.outcome (.tensor a) (.tensor b) =
        if u.isAddressable then .succeeds u else .broadcast := by
      have hjoin : join? (Value.tensor a).shape (Value.tensor b).shape = some u := hu
      cases f <;> rw [outcome, hjoin] <;> rfl
    rw [houtcome]
    by_cases haddressable : u.isAddressable = true
    · obtain ⟨r, hr, rfl, -⟩ := Tensor.exists_zipWith (ε := α) f.real hu haddressable
      rw [onValues, hr, if_pos haddressable]
      rfl
    · have hlarge : ∀ s, join? a.shape b.shape = some s → s.isAddressable = false := by
        intro s hs
        obtain rfl := Option.some.inj (hu.symm.trans hs)
        exact Bool.eq_false_iff.mpr haddressable
      rw [onValues, Tensor.zipWith_eq_error hlarge, if_neg haddressable]
      rfl

omit [LawfulScalar α] in
/-- The angle of a point is there when both coordinates are real. -/
theorem of_atan2In (c d : Constant α) (u : Shape) :
    Outcome.of (c.atan2In u d >>= fun e => .ok (.symbol e)) =
      if atan2.isComplexAngle (.symbol c) (.symbol d) then .unsupported else .succeeds u := by
  have hplane : Outcome.of ((do
        let y ← c.coordinate
        let x ← d.coordinate
        return Constant.calculated (Scalar.atan2 y x) u) >>= fun e => .ok (.symbol e)) =
      if c.value.isReal && d.value.isReal then .succeeds u else .unsupported := by
    have hcoordinate (e : Constant α) : e.coordinate =
        if e.value.isReal then .ok e.value.re else .error (.unsupported (.angleOfComplex e)) := by
      rw [Constant.coordinate, ComplexNumber.asReal?]
      cases e.value.isReal <;> rfl
    rw [hcoordinate c, hcoordinate d]
    cases c.value.isReal with
    | false => rfl
    | true =>
      cases d.value.isReal with
      | false => rfl
      | true =>
        have hshape := Constant.shape_withShape
          (Constant.calculated (Scalar.atan2 c.value.re d.value.re) u) u
        rw [Constant.calculated, Constant.withShape_ofNumber] at hshape
        exact congrArg Outcome.succeeds hshape
  have hswap : (if !(c.value.isReal && d.value.isReal) then Outcome.unsupported
      else .succeeds u) =
      if c.value.isReal && d.value.isReal then .succeeds u else .unsupported := by
    cases c.value.isReal && d.value.isReal <;> rfl
  -- a coordinate that is the undefined symbol is answered before any complex one is refused
  cases c <;> cases d <;> first | rfl | exact hplane.trans hswap.symm

omit [LawfulScalar α] in
theorem of_onConstants (f : BinaryFn) (c d : Constant α) :
    Outcome.of (f.onValues (.symbol c) (.symbol d)) = f.outcome (.symbol c) (.symbol d) := by
  cases hu : join? c.shape d.shape with
  | none =>
    rw [onValues, onConstants, Tensor.joinShapes, hu]
    exact (outcome_of_not_join (v := .symbol c) (w := .symbol d) hu).symm
  | some u =>
    have houtcome : f.outcome (.symbol c) (.symbol d) =
        if f.isComplexAngle (.symbol c) (.symbol d) then .unsupported else .succeeds u := by
      have hjoin : join? (Value.symbol c).shape (Value.symbol d).shape = some u := hu
      rw [outcome, hjoin]
      cases f <;> rfl
    rw [houtcome]
    by_cases hf : f = .atan2
    · obtain rfl := hf
      rw [onValues, onConstants, Tensor.joinShapes_eq_ok.mpr hu]
      exact of_atan2In c d u
    · obtain ⟨e, he⟩ := exists_onConstants hf hu
      obtain rfl : u = e.shape := Option.some.inj (hu.symm.trans (onConstants_eq_ok he).1)
      rw [onValues, he]
      cases f with
      | atan2 => exact absurd rfl hf
      | _ => rfl

/-- How a function of two values ends is told from their shapes and constants. -/
theorem of_onValues (f : BinaryFn) (v w : Value α) :
    Outcome.of (f.onValues v w) = f.outcome v w := by
  cases v with
  | tensor a =>
    cases w with
    | tensor b => exact of_zipWith f a b
    | symbol d => exact of_onTensorConstant f a d
  | symbol c =>
    cases w with
    | tensor b => exact of_onConstantTensor f c b
    | symbol d => exact of_onConstants f c d

omit [LawfulScalar α] in
theorem answersSymbol_of_isComplexAngle (h : f.isComplexAngle v w = true) :
    f.answersSymbol v w = true := by
  cases v with
  | tensor a => cases f <;> nomatch h
  | symbol c =>
    cases w with
    | tensor b => cases f <;> nomatch h
    | symbol d => cases f <;> rfl

theorem onValues_broadcast_iff :
    (∃ s t, f.onValues v w = .error (.broadcast s t)) ↔
      join? v.shape w.shape = none ∨ ∃ u, join? v.shape w.shape = some u ∧
        v.meetsComplex w = false ∧ f.answersSymbol v w = false ∧ u.isAddressable = false := by
  have hends : (∃ s t, f.onValues v w = .error (.broadcast s t)) ↔ f.Ends v w .broadcast := by
    rw [ends_iff, ← of_onValues]
    rcases f.onValues v w with (_ | _ | _) | _ <;> simp [Outcome.of]
  rw [hends]
  constructor
  · intro h
    cases h with
    | apart hjoin => exact Or.inl hjoin
    | tooLarge hjoin hcomplex _ hsymbol haddressable =>
      exact Or.inr ⟨_, hjoin, hcomplex, hsymbol, haddressable⟩
  · rintro (hjoin | ⟨u, hjoin, hcomplex, hsymbol, haddressable⟩)
    · exact .apart hjoin
    · -- an angle is a symbol, so what has to be built is none
      refine .tooLarge hjoin hcomplex (Bool.eq_false_iff.mpr fun hangle => ?_) hsymbol haddressable
      rw [answersSymbol_of_isComplexAngle hangle] at hsymbol
      nomatch hsymbol

theorem onValues_complexMaterialization_iff :
    (∃ z name, f.onValues v w = .error (.complexMaterialization z name)) ↔
      (∃ u, join? v.shape w.shape = some u) ∧ v.meetsComplex w = true := by
  have hends : (∃ z name, f.onValues v w = .error (.complexMaterialization z name)) ↔
      f.Ends v w .complexMaterialization := by
    rw [ends_iff, ← of_onValues]
    rcases f.onValues v w with (_ | _ | _) | _ <;> simp [Outcome.of]
  rw [hends]
  constructor
  · intro h
    cases h with
    | complex hjoin hcomplex => exact ⟨⟨_, hjoin⟩, hcomplex⟩
  · rintro ⟨⟨u, hjoin⟩, hcomplex⟩
    exact .complex hjoin hcomplex

theorem onValues_unsupported_iff :
    (∃ use, f.onValues v w = .error (.unsupported use)) ↔
      (∃ u, join? v.shape w.shape = some u) ∧ v.meetsComplex w = false ∧
        f.isComplexAngle v w = true := by
  have hends : (∃ use, f.onValues v w = .error (.unsupported use)) ↔
      f.Ends v w .unsupported := by
    rw [ends_iff, ← of_onValues]
    rcases f.onValues v w with (_ | _ | _) | _ <;> simp [Outcome.of]
  rw [hends]
  constructor
  · intro h
    cases h with
    | angle hjoin hcomplex hangle => exact ⟨⟨_, hjoin⟩, hcomplex, hangle⟩
  · rintro ⟨⟨u, hjoin⟩, hcomplex, hangle⟩
    exact .angle hjoin hcomplex hangle

theorem onValues_ok_iff :
    (∃ r, f.onValues v w = .ok r) ↔
      ∃ u, join? v.shape w.shape = some u ∧ v.meetsComplex w = false ∧
        f.isComplexAngle v w = false ∧ (f.answersSymbol v w = true ∨ u.isAddressable = true) := by
  have hends : (∃ r, f.onValues v w = .ok r) ↔ ∃ u, f.Ends v w (.succeeds u) := by
    simp only [ends_iff, ← of_onValues]
    rcases f.onValues v w with (_ | _ | _) | _ <;> simp [Outcome.of]
  rw [hends]
  constructor
  · rintro ⟨u, h⟩
    cases h with
    | result hjoin hcomplex hangle hheld => exact ⟨u, hjoin, hcomplex, hangle, hheld⟩
  · rintro ⟨u, hjoin, hcomplex, hangle, hheld⟩
    exact ⟨u, .result hjoin hcomplex hangle hheld⟩

/-- No function of two values fills a tensor. -/
theorem onValues_ne_unaddressable {s : Shape} : f.onValues v w ≠ .error (.unaddressable s) := by
  intro h
  have hends : f.Ends v w .unaddressable := by
    rw [ends_iff, ← of_onValues, h]
    rfl
  nomatch hends

/-- A function of two values fails for want of a joint shape first, for a complex constant beside a
tensor next, and for an angle of a complex point; else it succeeds in the joint shape. Beyond what a
tensor can hold only the results that are known as symbols are there. -/
theorem onValues_ends (f : BinaryFn) (v w : Value α) :
    ((∃ s t, f.onValues v w = .error (.broadcast s t)) ↔
      join? v.shape w.shape = none ∨ ∃ u, join? v.shape w.shape = some u ∧
        v.meetsComplex w = false ∧ f.answersSymbol v w = false ∧ u.isAddressable = false) ∧
    ((∃ z name, f.onValues v w = .error (.complexMaterialization z name)) ↔
      (∃ u, join? v.shape w.shape = some u) ∧ v.meetsComplex w = true) ∧
    ((∃ use, f.onValues v w = .error (.unsupported use)) ↔
      (∃ u, join? v.shape w.shape = some u) ∧ v.meetsComplex w = false ∧
        f.isComplexAngle v w = true) ∧
    ((∃ r, f.onValues v w = .ok r) ↔
      ∃ u, join? v.shape w.shape = some u ∧ v.meetsComplex w = false ∧
        f.isComplexAngle v w = false ∧ (f.answersSymbol v w = true ∨ u.isAddressable = true)) ∧
    ∀ r, f.onValues v w = .ok r → join? v.shape w.shape = some r.shape :=
  ⟨onValues_broadcast_iff, onValues_complexMaterialization_iff, onValues_unsupported_iff,
    onValues_ok_iff, fun _ => shape_onValues⟩

theorem onValues_ends_product :
    let v : Value Double := .tensor (Tensor.replicate [2, 1] Scalar.half)
    let w : Value Double := .symbol (.number ⟨.ofReal Scalar.two, false, [3]⟩)
    v.meetsComplex w = false ∧ ∃ r, mul.onValues v w = .ok r ∧ r.shape = [2, 3] := by
  intro v w
  obtain ⟨-, -, -, hok, hshape⟩ := onValues_ends mul v w
  have hreal : v.meetsComplex w = false := by
    decide +kernel
  obtain ⟨r, hr⟩ := hok.mpr ⟨[2, 3], rfl, hreal, rfl, Or.inr (by decide)⟩
  exact ⟨hreal, r, hr, (Option.some.inj (hshape r hr)).symm⟩

/-- A product without entries in a shape whose axes are too long: it is not there, although the
shapes of its operands join. -/
theorem onValues_not_addressable :
    let v : Value Double := .tensor (Tensor.replicate [0, 1, 1] Scalar.one)
    let w : Value Double := .symbol (.number ⟨.ofReal Scalar.two, false, [4611686018427387904, 4]⟩)
    join? v.shape w.shape = some [0, 4611686018427387904, 4] ∧ v.meetsComplex w = false ∧
      ∃ s t, mul.onValues v w = .error (.broadcast s t) := by
  intro v w
  have hjoin : join? v.shape w.shape = some [0, 4611686018427387904, 4] := rfl
  have hreal : v.meetsComplex w = false := by
    decide +kernel
  refine ⟨hjoin, hreal, onValues_broadcast_iff.mpr (Or.inr ⟨_, hjoin, hreal, rfl, ?_⟩)⟩
  decide

end BinaryFn

end FormulaCalculus
