import FormulaCalculus.Proofs.Alike.Values
import FormulaCalculus.Proofs.Scalar.DoubleLaws

/-!
Sums and products with the operands exchanged. The results are identical in kind, shape, flag and
numbers, but for the choice of an undefined number; a refusal is the same with the shapes of the
operands exchanged. Only where a tensor meets a constant and their joint shape is more than a tensor
can have, both orders are refused in the same words, which name the tensor's shape first.
-/

namespace FormulaCalculus

open LawfulRounding
open Scalar (isNaN)
open Shape (join?)

variable {α : Type} [Scalar α]

/-- Whether two numbers are identical, the sign of a zero included, or both undefined. -/
def Scalar.Identical (x y : α) : Prop := x = y ∨ isNaN x = true ∧ isNaN y = true

/-- Number systems whose sums and products do not depend on the order of the operands, but for the
choice of the undefined number. -/
class CommutativeScalar (α : Type) [Scalar α] : Prop where
  add_identical : ∀ x y : α, Scalar.Identical (x + y) (y + x)
  mul_identical : ∀ x y : α, Scalar.Identical (x * y) (y * x)

/-- Whether two complex numbers are identical in both parts. -/
structure ComplexNumber.Identical (z w : ComplexNumber α) : Prop where
  re : Scalar.Identical z.re w.re
  im : Scalar.Identical z.im w.im

/-- Whether two constants are identical in kind, shape, flag and number. -/
inductive Constant.Identical : Constant α → Constant α → Prop
  | refl (c : Constant α) : Identical c c
  | number {z w : ComplexNumber α} (flag : Bool) (s : Shape) (h : z.Identical w) :
      Identical (.number ⟨z, flag, s⟩) (.number ⟨w, flag, s⟩)

/-- Whether two values are tensors of one shape with identical entries, or identical constants. -/
inductive Value.Identical : Value α → Value α → Prop
  | tensor {a b : Tensor α} (h : Tensor.Related Scalar.Identical a b) :
      Identical (.tensor a) (.tensor b)
  | symbol {c d : Constant α} (h : c.Identical d) : Identical (.symbol c) (.symbol d)

/-- How a function of two values ends in either order of them, if the order makes no difference. -/
inductive BinaryFn.Exchanged (f : BinaryFn) (v w : Value α) :
    Except (AlgebraError α) (Value α) → Except (AlgebraError α) (Value α) → Prop
  | identical {r q : Value α} (h : r.Identical q) : Exchanged f v w (.ok r) (.ok q)
  | apart (h : join? v.shape w.shape = none ∨ ∃ a b, v = .tensor a ∧ w = .tensor b) :
      Exchanged f v w (.error (.broadcast v.shape w.shape)) (.error (.broadcast w.shape v.shape))
  | complex (z : ComplexNumber α) :
      Exchanged f v w (.error (.complexMaterialization z f.name))
        (.error (.complexMaterialization z f.name))
  /-- A tensor and a constant whose joint shape is more than a tensor can have. -/
  | tooLarge {a : Tensor α} {c : Constant α} {u : Shape}
      (h : v = .tensor a ∧ w = .symbol c ∨ v = .symbol c ∧ w = .tensor a)
      (hjoin : join? v.shape w.shape = some u) (hlarge : u.isAddressable = false) :
      Exchanged f v w (.error (.broadcast a.shape u)) (.error (.broadcast a.shape u))

namespace Scalar.Identical

variable {x x' y y' z : α} {g : α → α → α}

theorem refl (x : α) : Identical x x := Or.inl rfl

theorem symm (h : Identical x y) : Identical y x := h.imp Eq.symm And.symm

theorem trans (hxy : Identical x y) (hyz : Identical y z) : Identical x z := by
  rcases hxy with rfl | ⟨hx, hy⟩
  · exact hyz
  · rcases hyz with rfl | ⟨-, hz⟩
    · exact Or.inr ⟨hx, hy⟩
    · exact Or.inr ⟨hx, hz⟩

/-- What passes on undefined operands does not tell identical numbers apart. -/
theorem congr (hg : ∀ x y, isNaN x ∨ isNaN y → isNaN (g x y)) (hx : Identical x x')
    (hy : Identical y y') : Identical (g x y) (g x' y') := by
  rcases hx with rfl | ⟨hx, hx'⟩
  · rcases hy with rfl | ⟨hy, hy'⟩
    · exact .refl _
    · exact Or.inr ⟨hg _ _ (Or.inr hy), hg _ _ (Or.inr hy')⟩
  · exact Or.inr ⟨hg _ _ (Or.inl hx), hg _ _ (Or.inl hx')⟩

theorem alike [LawfulRounding α] (h : Identical x y) : Scalar.Alike x y := by
  rcases h with rfl | h
  · exact .refl x
  · exact Or.inr h

end Scalar.Identical

namespace ComplexNumber

variable [LawfulRounding α] [CommutativeScalar α]

omit [LawfulRounding α] in
theorem add_identical (z w : ComplexNumber α) : (z + w).Identical (w + z) :=
  ⟨CommutativeScalar.add_identical _ _, CommutativeScalar.add_identical _ _⟩

theorem mul_identical (z w : ComplexNumber α) : (z * w).Identical (w * z) := by
  have hmul (x y : α) : Scalar.Identical (x * y) (y * x) := CommutativeScalar.mul_identical x y
  constructor
  · exact (hmul z.re w.re).congr isNaN_sub (hmul z.im w.im)
  · -- the products of the imaginary part change places as well
    have hproducts := (hmul z.re w.im).congr isNaN_add (hmul z.im w.re)
    exact hproducts.trans (CommutativeScalar.add_identical _ _)

end ComplexNumber

namespace Constant

theorem Identical.symm {c d : Constant α} (h : c.Identical d) : d.Identical c := by
  cases h with
  | refl => exact .refl c
  | number flag s h => exact .number flag s ⟨h.re.symm, h.im.symm⟩

variable [LawfulRounding α]

/-- Identical numbers become identical symbols. -/
theorem Identical.ofNumber {z w : ComplexNumber α} (flag : Bool) (s : Shape) (h : z.Identical w) :
    (ofNumber ⟨z, flag, s⟩).Identical (ofNumber ⟨w, flag, s⟩) := by
  have hre := h.re.alike
  have hreal : z.isReal = w.isReal := h.im.alike.beq_eq _
  unfold Constant.ofNumber
  simp only [hreal, hre.beq_eq, hre.isNaN_eq]
  split_ifs
  · exact .number flag s h
  · exact .refl _
  · exact .refl _
  · exact .refl _
  · exact .refl _
  · exact .number flag s h

/-- Two numbers combined in either order, on the real line or off it. -/
theorem combine_identical {realOp : α → α → α}
    {complexOp : ComplexNumber α → ComplexNumber α → ComplexNumber α}
    (hreal : ∀ x y, Scalar.Identical (realOp x y) (realOp y x))
    (hcomplex : ∀ z w, (complexOp z w).Identical (complexOp w z)) (m n : Number α) (s : Shape) :
    (Number.combine realOp complexOp m n s).Identical (Number.combine realOp complexOp n m s) := by
  simp only [Number.combine, Number.asReal?, ComplexNumber.asReal?, Bool.or_comm n.imaginary]
  apply Identical.ofNumber
  cases m.value.isReal with
  | false => cases n.value.isReal <;> exact hcomplex _ _
  | true =>
    cases n.value.isReal with
    | false => exact hcomplex _ _
    | true => exact ⟨hreal _ _, .refl _⟩

variable [CommutativeScalar α]

theorem addIn_identical (c d : Constant α) (s : Shape) : (c.addIn s d).Identical (d.addIn s c) := by
  cases c with
  | number m =>
    cases d with
    | number n =>
      exact combine_identical CommutativeScalar.add_identical ComplexNumber.add_identical m n s
    | _ => exact .refl _
  | _ => cases d <;> exact .refl _

theorem mulIn_identical (c d : Constant α) (s : Shape) : (c.mulIn s d).Identical (d.mulIn s c) := by
  cases c with
  | number m =>
    cases d with
    | number n =>
      exact combine_identical CommutativeScalar.mul_identical ComplexNumber.mul_identical m n s
    | _ => exact .refl _
  | _ => cases d <;> exact .refl _

end Constant

/-- What a function makes of two lists in either order. -/
theorem forall₂_zipWith_exchanged {β γ : Type} {R : γ → γ → Prop} {f : β → β → γ}
    (hf : ∀ x y, R (f x y) (f y x)) (l m : List β) :
    List.Forall₂ R (List.zipWith f l m) (List.zipWith f m l) := by
  induction l generalizing m with
  | nil => cases m <;> exact .nil
  | cons x l ih =>
    cases m with
    | nil => exact .nil
    | cons y m => exact .cons (hf x y) (ih m)

namespace Tensor

variable {R S : α → α → Prop} {a a' b : Tensor α} {c c' : Constant α} {g g' : α → α} {u : Shape}

omit [Scalar α] in
theorem exists_zipWith_exchanged {f : α → α → α} (hf : ∀ x y, R (f x y) (f y x))
    (hu : join? a.shape b.shape = some u) (haddressable : u.isAddressable = true) :
    ∃ r q, a.zipWith f b = (.ok r : Except (AlgebraError α) (Tensor α)) ∧
      b.zipWith f a = (.ok q : Except (AlgebraError α) (Tensor α)) ∧ Related R r q := by
  have hu' : join? b.shape a.shape = some u := by rwa [Shape.join?_comm]
  obtain ⟨r, hr, hshape, hdata⟩ := exists_zipWith (ε := α) f hu haddressable
  obtain ⟨q, hq, hshape', hdata'⟩ := exists_zipWith (ε := α) f hu' haddressable
  refine ⟨r, q, hr, hq, hshape.trans hshape'.symm, ?_⟩
  rw [hdata, hdata']
  exact forall₂_zipWith_exchanged hf _ _

omit [Scalar α] in
theorem combineWith_eq_error (hu : join? a.shape c.shape = some u)
    (hlarge : u.isAddressable = false) :
    a.combineWith g c = .error (.broadcast a.shape u) := by
  rw [combineWith, mapIn_eq_error g hu hlarge]
  rfl

omit [Scalar α] in
/-- Related entries that are mapped into one shape: both results are there, with related entries, or
the shape is more than a tensor can have. -/
theorem combineWith_ends (ha : Related R a a') (hc : c.shape = c'.shape)
    (hg : ∀ x y, R x y → S (g x) (g' y)) (hu : join? a.shape c.shape = some u) :
    (∃ r q, a.combineWith g c = .ok (.tensor r) ∧ a'.combineWith g' c' = .ok (.tensor q) ∧
      Related S r q) ∨
    u.isAddressable = false ∧ a.combineWith g c = .error (.broadcast a.shape u) ∧
      a'.combineWith g' c' = .error (.broadcast a.shape u) := by
  have hu' : join? a'.shape c'.shape = some u := by rw [← ha.shape, ← hc, hu]
  cases haddressable : u.isAddressable with
  | true =>
    obtain ⟨r, hr, -, -⟩ := exists_mapIn (ε := α) g hu haddressable
    obtain ⟨q, hq, hrelated⟩ := ha.mapIn hg hr
    rw [hc] at hq
    refine Or.inl ⟨r, q, ?_, ?_, hrelated⟩
    · rw [combineWith, hr]
      rfl
    · rw [combineWith, hq]
      rfl
  | false =>
    refine Or.inr ⟨rfl, combineWith_eq_error hu haddressable, ?_⟩
    rw [combineWith_eq_error hu' haddressable, ha.shape]

end Tensor

namespace BinaryFn

variable {f : BinaryFn} {v w : Value α} {x y : Except (AlgebraError α) (Value α)}

theorem Exchanged.symm (h : f.Exchanged v w x y) : f.Exchanged w v y x := by
  have hjoin : join? w.shape v.shape = join? v.shape w.shape := Shape.join?_comm _ _
  cases h with
  | identical h =>
    apply Exchanged.identical
    cases h with
    | tensor h => exact .tensor ⟨h.shape.symm, h.data.flip.imp fun _ _ => .symm⟩
    | symbol h => exact .symbol h.symm
  | apart h =>
    apply Exchanged.apart
    rcases h with h | ⟨a, b, hv, hw⟩
    · exact Or.inl (hjoin.trans h)
    · exact Or.inr ⟨b, a, hw, hv⟩
  | complex z => exact .complex z
  | tooLarge h hu hlarge => exact .tooLarge (h.symm.imp And.symm And.symm) (hjoin.trans hu) hlarge

/-- Both orders join the shapes first, and refuse those that do not join. -/
theorem Exchanged.of_join {g g' : Shape → Except (AlgebraError α) (Value α)}
    (h : ∀ u, join? v.shape w.shape = some u → f.Exchanged v w (g u) (g' u)) :
    f.Exchanged v w (Tensor.joinShapes v.shape w.shape >>= g)
      (Tensor.joinShapes w.shape v.shape >>= g') := by
  rw [Tensor.joinShapes, Tensor.joinShapes, Shape.join?_comm w.shape]
  cases hu : join? v.shape w.shape with
  | none => exact .apart (Or.inl hu)
  | some u => exact h u hu

variable [LawfulRounding α] [CommutativeScalar α]

omit [LawfulRounding α] in
theorem real_identical (hf : f.isCommutative = true) (x y : α) :
    Scalar.Identical (f.real x y) (f.real y x) := by
  cases f with
  | add => exact CommutativeScalar.add_identical x y
  | mul => exact CommutativeScalar.mul_identical x y
  | _ => nomatch hf

omit [LawfulRounding α] in
theorem exchanged_tensors (hf : f.isCommutative = true) (a b : Tensor α) :
    f.Exchanged (.tensor a) (.tensor b) (f.onValues (.tensor a) (.tensor b))
      (f.onValues (.tensor b) (.tensor a)) := by
  by_cases h : ∃ u, join? a.shape b.shape = some u ∧ u.isAddressable = true
  · obtain ⟨u, hu, haddressable⟩ := h
    obtain ⟨r, q, hr, hq, hidentical⟩ :=
      Tensor.exists_zipWith_exchanged (real_identical hf) hu haddressable
    rw [onValues, onValues, hr, hq]
    exact .identical (.tensor hidentical)
  · have hlarge (u : Shape) (hu : join? a.shape b.shape = some u) : u.isAddressable = false :=
      Bool.eq_false_iff.mpr fun haddressable => h ⟨u, hu, haddressable⟩
    have hlarge' (u : Shape) (hu : join? b.shape a.shape = some u) : u.isAddressable = false :=
      hlarge u (by rwa [Shape.join?_comm])
    rw [onValues, onValues, Tensor.zipWith_eq_error hlarge, Tensor.zipWith_eq_error hlarge']
    exact .apart (Or.inr ⟨a, b, rfl, rfl⟩)

omit [LawfulRounding α] in
theorem exchanged_mixed (hf : f.isCommutative = true) (a : Tensor α) (c : Constant α) :
    f.Exchanged (.tensor a) (.symbol c) (f.onValues (.tensor a) (.symbol c))
      (f.onValues (.symbol c) (.tensor a)) := by
  rw [onValues, onValues, onTensorConstant, onConstantTensor]
  apply Exchanged.of_join
  intro u hu
  have hcombine {g g' : α → α} (hg : ∀ x, Scalar.Identical (g x) (g' x)) :
      f.Exchanged (.tensor a) (.symbol c) (a.combineWith g c) (a.combineWith g' c) := by
    have hentry (x y : α) (hxy : x = y) : Scalar.Identical (g x) (g' y) := hxy ▸ hg x
    rcases Tensor.combineWith_ends (Tensor.related_self a) rfl hentry hu with
      ⟨r, q, hr, hq, hidentical⟩ | ⟨hlarge, hr, hq⟩
    · rw [hr, hq]
      exact .identical (.tensor hidentical)
    · rw [hr, hq]
      exact .tooLarge (Or.inl ⟨rfl, rfl⟩) hu hlarge
  -- without a short cut the real part of the constant meets every entry
  have hentries : f.Exchanged (.tensor a) (.symbol c)
      (Value.realPart f.name c >>= fun y => a.combineWith (fun x => f.real x y) c)
      (Value.realPart f.name c >>= fun x => a.combineWith (fun y => f.real x y) c) := by
    unfold Value.realPart
    cases c.value.asReal? with
    | none => exact .complex c.value
    | some y => exact hcombine fun x => real_identical hf x y
  have hsymbol (d : Constant α) :
      f.Exchanged (.tensor a) (.symbol c) (.ok (.symbol d)) (.ok (.symbol d)) :=
    .identical (.symbol (.refl d))
  cases f with
  | add =>
    cases c with
    | nan s => exact hsymbol _
    | zero s => exact hcombine fun x => .refl x
    | unity s | negUnity s | number n => exact hentries
  | mul =>
    cases c with
    | nan s | zero s => exact hsymbol _
    | unity s => exact hcombine fun x => .refl x
    | negUnity s => exact hcombine fun x => .refl _
    | number n => exact hentries
  | _ => nomatch hf

theorem exchanged_constants (hf : f.isCommutative = true) (c d : Constant α) :
    f.Exchanged (.symbol c) (.symbol d) (f.onValues (.symbol c) (.symbol d))
      (f.onValues (.symbol d) (.symbol c)) := by
  rw [onValues, onValues, onConstants, onConstants, bind_assoc, bind_assoc]
  apply Exchanged.of_join
  intro u _
  cases f with
  | add => exact .identical (.symbol (Constant.addIn_identical c d u))
  | mul => exact .identical (.symbol (Constant.mulIn_identical c d u))
  | _ => nomatch hf

/-- Sums and products end in the same way in either order of the operands. -/
theorem onValues_exchanged (hf : f.isCommutative = true) (v w : Value α) :
    f.Exchanged v w (f.onValues v w) (f.onValues w v) := by
  cases v with
  | tensor a =>
    cases w with
    | tensor b => exact exchanged_tensors hf a b
    | symbol d => exact exchanged_mixed hf a d
  | symbol c =>
    cases w with
    | tensor b => exact (exchanged_mixed hf b c).symm
    | symbol d => exact exchanged_constants hf c d

end BinaryFn

/-! ### Machine numbers -/

namespace Double

theorem lift₂_identical {f : Float → Float → Float} (hf : ∀ x y, f x y = f y x) (x y : Double) :
    Scalar.Identical (lift₂ f x y) (lift₂ f y x) := by
  cases x with
  | nan s => cases y <;> exact Or.inr ⟨rfl, rfl⟩
  | number a ha =>
    cases y with
    | nan t => exact Or.inr ⟨rfl, rfl⟩
    | number b hb =>
      change Scalar.Identical (ofFloat (f a b)) (ofFloat (f b a))
      rw [hf]
      exact .refl _

end Double

instance : CommutativeScalar Double where
  add_identical := Double.lift₂_identical Double.float_add_comm
  mul_identical := Double.lift₂_identical Double.float_mul_comm

namespace BinaryFn

/-- The sum of a column and a complex constant, which both orders refuse. -/
theorem onValues_exchanged_complex :
    let v : Value Double := .tensor (Tensor.replicate [2, 1] Scalar.half)
    let w : Value Double := .symbol (.number ⟨.unit, true, [3]⟩)
    add.isCommutative = true ∧ add.Exchanged v w (add.onValues v w) (add.onValues w v) := by
  intro v w
  exact ⟨rfl, onValues_exchanged rfl v w⟩

/-- A tensor without entries and a one in a shape whose axes are too long: both orders name the
tensor's shape first. -/
theorem product_tooLarge :
    let v : Value Double := .tensor (Tensor.replicate [0, 1, 1] Scalar.half)
    let w : Value Double := .symbol (.unity [4611686018427387904, 4])
    ∃ s t, s ≠ t ∧ mul.onValues v w = .error (.broadcast s t) ∧
      mul.onValues w v = .error (.broadcast s t) := by
  intro v w
  have hlarge : Shape.isAddressable [0, 4611686018427387904, 4] = false := by
    decide
  have hjoin : join? [0, 1, 1] [4611686018427387904, 4] = some [0, 4611686018427387904, 4] := rfl
  have herror : (Tensor.replicate [0, 1, 1] (Scalar.half : Double)).combineWith (fun x => x)
      (.unity [4611686018427387904, 4]) =
        .error (.broadcast [0, 1, 1] [0, 4611686018427387904, 4]) :=
    Tensor.combineWith_eq_error hjoin hlarge
  refine ⟨[0, 1, 1], [0, 4611686018427387904, 4], by decide, ?_, ?_⟩
  · exact herror
  · exact herror

end BinaryFn

end FormulaCalculus
