import FormulaCalculus.Proofs.Algebra.Commutation
import FormulaCalculus.Proofs.Alike.Broadcasting

/-!
Differences as sums with the opposite. Two numbers are subtracted directly, other constants through
the sum, and the entries of a tensor by rules of their own. All three end as the sum with the
opposite does: in alike values of one kind and shape, or with the same refusal.
-/

namespace FormulaCalculus

open LawfulRounding
open Scalar (isNaN)
open Shape (join?)

variable {α : Type} [Scalar α]

/-- How a difference ends, and with it the sum with the opposite of the subtrahend. -/
inductive BinaryFn.AsSum :
    Except (AlgebraError α) (Value α) → Except (AlgebraError α) (Value α) → Prop
  | alike {r q : Value α} (h : r.Alike q) : AsSum (.ok r) (.ok q)
  | broadcast (s t : Shape) : AsSum (.error (.broadcast s t)) (.error (.broadcast s t))
  /-- A complex constant beside a tensor. The sum has the opposite one if it is subtracted. -/
  | complex {z w : ComplexNumber α} (h : w.Alike z ∨ w.Alike (-z)) :
      AsSum (.error (.complexMaterialization z sub.name))
        (.error (.complexMaterialization w add.name))

variable [LawfulRounding α]

theorem Scalar.sub_alike (x y : α) : Scalar.Alike (x - y) (x + -y) := by
  cases hy : isNaN y with
  | true =>
    have hneg : isNaN (-y) = true := (LawfulScalar.isNaN_neg y).trans hy
    exact Or.inr ⟨isNaN_sub x y (Or.inr hy), isNaN_add x (-y) (Or.inr hneg)⟩
  | false =>
    rw [sub_eq x y hy]
    exact .refl _

theorem ComplexNumber.sub_alike (z w : ComplexNumber α) : (z - w).Alike (z + -w) :=
  ⟨Scalar.sub_alike z.re w.re, Scalar.sub_alike z.im w.im⟩

namespace Constant

omit [LawfulRounding α] in
/-- A sum does not see the shape of its second operand. -/
theorem addIn_negIn (c d : Constant α) (s : Shape) :
    c.addIn s (d.negIn s) = c.addIn s (UnaryFn.neg.onConstant d) := by
  have hshape := addIn_withShape c (UnaryFn.neg.onConstant d) c.shape s s s
  have hself := addIn_withShape c (UnaryFn.neg.onConstant d) c.shape
    (UnaryFn.neg.onConstant d).shape s s
  rw [withShape_self] at hshape
  rw [withShape_self, withShape_self] at hself
  rw [negIn_eq, hshape, ← hself]

theorem subIn_alike (c : Constant α) {d : Constant α} (hd : d.WellFormed) (s : Shape) :
    (c.subIn s d).Alike (c.addIn s (UnaryFn.neg.onConstant d)) := by
  have hsum : (c.addIn s (d.negIn s)).Alike (c.addIn s (UnaryFn.neg.onConstant d)) := by
    rw [addIn_negIn]
    exact .refl _
  cases c with
  | number m =>
    cases d with
    | number n =>
      -- only two numbers are subtracted directly
      rw [UnaryFn.onConstant_neg hd]
      exact Alike.combine m.imaginary n.imaginary m.shape n.shape s rfl
        (ComplexNumber.isReal_neg n.value).symm (Scalar.sub_alike _ _)
        (ComplexNumber.sub_alike _ _)
    | nan t => exact .nan s
    | _ => exact hsum
  | nan r => exact .nan s
  | _ =>
    cases d with
    | nan t => exact .nan s
    | _ => exact hsum

end Constant

namespace BinaryFn

open Tensor (Related)

variable {R : α → α → Prop} {a a' : Tensor α} {c d : Constant α} {u : Shape}

omit [LawfulRounding α] in
theorem AsSum.of_join {s t : Shape} {g g' : Shape → Except (AlgebraError α) (Value α)}
    (h : ∀ u, join? s t = some u → AsSum (g u) (g' u)) :
    AsSum (Tensor.joinShapes s t >>= g) (Tensor.joinShapes s t >>= g') := by
  rw [Tensor.joinShapes]
  cases hu : join? s t with
  | none => exact .broadcast s t
  | some u => exact h u hu

omit [LawfulRounding α] in
/-- Entries that are mapped alike, beside constants of one shape. -/
theorem AsSum.combineWith {g g' : α → α} (ha : Related R a a') (hc : c.shape = d.shape)
    (hg : ∀ x y, R x y → Scalar.Alike (g x) (g' y)) (hu : join? a.shape c.shape = some u) :
    AsSum (a.combineWith g c) (a'.combineWith g' d) := by
  rcases Tensor.combineWith_ends ha hc hg hu with ⟨r, q, hr, hq, hrq⟩ | ⟨-, hr, hq⟩
  · rw [hr, hq]
    exact .alike (.tensor hrq)
  · rw [hr, hq]
    exact .broadcast _ _

omit [LawfulRounding α] in
/-- The entries of a tensor beside those of its opposite. -/
theorem related_neg (b : Tensor α) :
    Related (fun y y' => y' = -y) b (b.map UnaryFn.neg.real) :=
  ⟨rfl, List.forall₂_map_right_iff.mpr (List.forall₂_same.mpr fun _ _ => rfl)⟩

theorem asSum_tensors (a b : Tensor α) :
    AsSum (sub.onValues (.tensor a) (.tensor b))
      (add.onValues (.tensor a) (UnaryFn.neg.onValue (.tensor b))) := by
  rw [UnaryFn.onValue, onValues, onValues]
  by_cases h : ∃ u, join? a.shape b.shape = some u ∧ u.isAddressable = true
  · obtain ⟨u, hu, haddressable⟩ := h
    obtain ⟨r, hr, -, -⟩ := Tensor.exists_zipWith (ε := α) sub.real hu haddressable
    have hentries (x x' y y' : α) (hx : x = x') (hy : y' = -y) :
        Scalar.Alike (sub.real x y) (add.real x' y') := by
      rw [← hx, hy]
      exact Scalar.sub_alike x y
    obtain ⟨q, hq, hrq⟩ := (Tensor.related_self a).zipWith (related_neg b) hentries hr
    rw [hr, hq]
    exact .alike (.tensor hrq)
  · have hlarge (u : Shape) (hu : join? a.shape b.shape = some u) : u.isAddressable = false :=
      Bool.eq_false_iff.mpr fun haddressable => h ⟨u, hu, haddressable⟩
    have hlarge' (u : Shape) (hu : join? a.shape (b.map UnaryFn.neg.real).shape = some u) :
        u.isAddressable = false := hlarge u hu
    rw [Tensor.zipWith_eq_error hlarge, Tensor.zipWith_eq_error hlarge']
    exact .broadcast _ _

theorem asSum_tensorConstant (a : Tensor α) {d : Constant α} (hd : d.WellFormed) :
    AsSum (sub.onValues (.tensor a) (.symbol d))
      (add.onValues (.tensor a) (UnaryFn.neg.onValue (.symbol d))) := by
  rw [UnaryFn.onValue, onValues, onValues, onTensorConstant, onTensorConstant,
    UnaryFn.shape_onConstant]
  apply AsSum.of_join
  intro u hu
  have hvalue := UnaryFn.value_neg_alike d
  have hshape : d.shape = (UnaryFn.neg.onConstant d).shape := (UnaryFn.shape_onConstant _ d).symm
  -- without a short cut the opposite of the constant's real part meets every entry
  have hentries : AsSum
      (Value.realPart sub.name d >>= fun y => a.combineWith (fun x => sub.real x y) d)
      (Value.realPart add.name (UnaryFn.neg.onConstant d) >>= fun y =>
        a.combineWith (fun x => add.real x y) (UnaryFn.neg.onConstant d)) := by
    have hreal : (UnaryFn.neg.onConstant d).value.isReal = d.value.isReal :=
      hvalue.isReal.trans (ComplexNumber.isReal_neg d.value)
    unfold Value.realPart ComplexNumber.asReal?
    rw [hreal]
    cases d.value.isReal with
    | false => exact .complex (Or.inr hvalue)
    | true =>
      refine AsSum.combineWith (Tensor.related_self a) hshape ?_ hu
      intro x y hxy
      rw [← hxy]
      have hsum := (Scalar.Alike.refl x).add hvalue.re.symm
      exact (Scalar.sub_alike x d.value.re).trans hsum
  cases d with
  | nan t => exact .alike (.refl _)
  | zero t =>
    exact AsSum.combineWith (c := .zero t) (d := .zero t) (Tensor.related_self a) rfl
      (fun x y hxy => hxy ▸ .refl x) hu
  | unity t | negUnity t => exact hentries
  | number n =>
    rw [UnaryFn.onConstant_neg hd] at hentries ⊢
    exact hentries

theorem asSum_constantTensor (c : Constant α) (b : Tensor α) :
    AsSum (sub.onValues (.symbol c) (.tensor b))
      (add.onValues (.symbol c) (UnaryFn.neg.onValue (.tensor b))) := by
  rw [UnaryFn.onValue, onValues, onValues, onConstantTensor, onConstantTensor]
  apply AsSum.of_join
  intro u hu
  have hu' : join? b.shape c.shape = some u := by rwa [Shape.join?_comm]
  have hentries : AsSum
      (Value.realPart sub.name c >>= fun x => b.combineWith (fun y => sub.real x y) c)
      (Value.realPart add.name c >>= fun x =>
        (b.map UnaryFn.neg.real).combineWith (fun y => add.real x y) c) := by
    unfold Value.realPart ComplexNumber.asReal?
    cases c.value.isReal with
    | false => exact .complex (Or.inl (.refl _))
    | true =>
      refine AsSum.combineWith (related_neg b) rfl ?_ hu'
      rintro y _ rfl
      exact Scalar.sub_alike c.value.re y
  cases c with
  | nan s => exact .alike (.refl _)
  | zero s =>
    refine AsSum.combineWith (c := .zero s) (d := .zero s) (related_neg b) rfl ?_ hu'
    rintro y _ rfl
    exact .refl (-y)
  | unity s | negUnity s | number n => exact hentries

theorem asSum_constants (c : Constant α) {d : Constant α} (hd : d.WellFormed) :
    AsSum (sub.onValues (.symbol c) (.symbol d))
      (add.onValues (.symbol c) (UnaryFn.neg.onValue (.symbol d))) := by
  rw [UnaryFn.onValue, onValues, onValues, onConstants, onConstants, bind_assoc, bind_assoc,
    UnaryFn.shape_onConstant]
  apply AsSum.of_join
  intro u _
  exact .alike (.symbol (Constant.subIn_alike c hd u))

/-- A difference ends like the sum with the opposite, and the opposite of the opposite is the same
again. -/
theorem onValues_asSum (v : Value α) {w : Value α} (hw : w.WellFormed) :
    AsSum (sub.onValues v w) (add.onValues v (UnaryFn.neg.onValue w)) ∧
      UnaryFn.neg.onValue (UnaryFn.neg.onValue w) = w := by
  refine ⟨?_, UnaryFn.onValue_neg_neg hw⟩
  cases v with
  | tensor a =>
    cases w with
    | tensor b => exact asSum_tensors a b
    | symbol d => exact asSum_tensorConstant a hw
  | symbol c =>
    cases w with
    | tensor b => exact asSum_constantTensor c b
    | symbol d => exact asSum_constants c hw

/-- A half is subtracted from the imaginary unit, which has another shape. -/
theorem onValues_asSum_half :
    let v : Value Double := .symbol (.number ⟨.unit, true, [2, 1]⟩)
    let w : Value Double := .symbol (.number ⟨.ofReal Scalar.half, false, [3]⟩)
    w.WellFormed ∧ AsSum (sub.onValues v w) (add.onValues v (UnaryFn.neg.onValue w)) ∧
      UnaryFn.neg.onValue (UnaryFn.neg.onValue w) = w := by
  intro v w
  have hw : w.WellFormed := by
    intro _
    exact ⟨ComplexNumber.isReal_ofReal _, LawfulScalar.half_plain⟩
  exact ⟨hw, onValues_asSum v hw⟩

end BinaryFn

end FormulaCalculus
