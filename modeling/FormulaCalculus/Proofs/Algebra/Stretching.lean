import FormulaCalculus.Algebra.Value
import FormulaCalculus.Proofs.Tensor.Stretching

/-!
Stretching of constants and values. Which constant an operation on constants gives does not depend
on their shapes; only the shape of the result does.
-/

namespace FormulaCalculus

open Shape (join?)

variable {α : Type} [Scalar α]

namespace Constant

omit [Scalar α] in
@[simp] theorem shape_withShape (c : Constant α) (s : Shape) : (c.withShape s).shape = s := by
  cases c <;> rfl

omit [Scalar α] in
@[simp] theorem withShape_withShape (c : Constant α) (s t : Shape) :
    (c.withShape s).withShape t = c.withShape t := by
  cases c <;> rfl

omit [Scalar α] in
@[simp] theorem withShape_self (c : Constant α) : c.withShape c.shape = c := by
  cases c <;> rfl

@[simp] theorem value_withShape (c : Constant α) (s : Shape) : (c.withShape s).value = c.value := by
  cases c <;> rfl

@[simp] theorem hasZeroValue_withShape (c : Constant α) (s : Shape) :
    (c.withShape s).hasZeroValue = c.hasZeroValue := by
  cases c <;> rfl

theorem withShape_ofNumber (z : ComplexNumber α) (flag : Bool) (s t : Shape) :
    (ofNumber ⟨z, flag, s⟩).withShape t = ofNumber ⟨z, flag, t⟩ := by
  unfold ofNumber
  split_ifs <;> rfl

theorem negIn_withShape (c : Constant α) (s u v : Shape) :
    (c.withShape s).negIn u = (c.negIn v).withShape u := by
  cases c with
  | number n => exact (withShape_ofNumber _ _ v u).symm
  | _ => rfl

theorem addIn_withShape (c d : Constant α) (s t u v : Shape) :
    (c.withShape s).addIn u (d.withShape t) = (c.addIn v d).withShape u := by
  cases c <;> cases d <;> first | rfl | exact (withShape_ofNumber _ _ v u).symm

theorem subIn_withShape (c d : Constant α) (s t u v : Shape) :
    (c.withShape s).subIn u (d.withShape t) = (c.subIn v d).withShape u := by
  have hsum : (c.withShape s).addIn u ((d.withShape t).negIn u) =
      (c.addIn v (d.negIn v)).withShape u := by
    rw [negIn_withShape d t u v]
    exact addIn_withShape c (d.negIn v) s u u v
  cases c <;> cases d <;> first | exact hsum | rfl | exact (withShape_ofNumber _ _ v u).symm

theorem mulIn_withShape (c d : Constant α) (s t u v : Shape) :
    (c.withShape s).mulIn u (d.withShape t) = (c.mulIn v d).withShape u := by
  cases c <;> cases d <;> first | rfl | exact (withShape_ofNumber _ _ v u).symm

theorem divNonzeroIn_withShape (c d : Constant α) (s t u v : Shape) :
    (c.withShape s).divNonzeroIn u (d.withShape t) = (c.divNonzeroIn v d).withShape u := by
  cases c <;> cases d <;> first | rfl | exact (withShape_ofNumber _ _ v u).symm

theorem divIn_withShape (c d : Constant α) (s t u v : Shape) :
    (c.withShape s).divIn u (d.withShape t) = (c.divIn v d).withShape u := by
  unfold divIn
  rw [hasZeroValue_withShape]
  split_ifs
  · rfl
  · exact divNonzeroIn_withShape c d s t u v

theorem powOfZeroIn_withShape (d : Constant α) (t u v : Shape) :
    (d.withShape t).powOfZeroIn u = (d.powOfZeroIn v).withShape u := by
  cases d with
  | number n =>
    simp only [withShape, powOfZeroIn]
    split_ifs <;> rfl
  | _ => rfl

theorem powNonzeroIn_withShape (c d : Constant α) (s t u v : Shape) :
    (c.withShape s).powNonzeroIn u (d.withShape t) = (c.powNonzeroIn v d).withShape u := by
  cases c with
  | zero r => exact powOfZeroIn_withShape d t u v
  | _ => cases d <;> first | rfl | exact (withShape_ofNumber _ _ v u).symm

theorem powIn_withShape (c d : Constant α) (s t u v : Shape) :
    (c.withShape s).powIn u (d.withShape t) = (c.powIn v d).withShape u := by
  unfold powIn
  rw [hasZeroValue_withShape]
  split_ifs
  · exact powOfZeroIn_withShape d t u v
  · exact powNonzeroIn_withShape c d s t u v

theorem coordinate_withShape {c : Constant α} {x : α} (h : c.coordinate = .ok x) (s : Shape) :
    (c.withShape s).coordinate = .ok x := by
  unfold coordinate at h ⊢
  rw [value_withShape]
  cases hreal : c.value.asReal? with
  | none =>
    rw [hreal] at h
    nomatch h
  | some y =>
    rw [hreal] at h
    exact h

/-- Whether an operation gives a constant of the shape it is told, and the same constant for
operands of other shapes. -/
def Shapeless (op : Shape → Constant α → Constant α → Except (AlgebraError α) (Constant α)) :
    Prop :=
  ∀ u c d e, op u c d = .ok e →
    e.shape = u ∧ ∀ s t v, op v (c.withShape s) (d.withShape t) = .ok (e.withShape v)

omit [Scalar α] in
theorem shapeless_of_withShape {op : Shape → Constant α → Constant α → Constant α}
    (hop : ∀ c d s t u v, op u (c.withShape s) (d.withShape t) = (op v c d).withShape u) :
    Shapeless fun u c d => .ok (op u c d) := by
  intro u c d e h
  obtain rfl := Except.ok.inj h
  constructor
  · have hself := hop c d c.shape d.shape u u
    rw [withShape_self, withShape_self] at hself
    rw [hself, shape_withShape]
  · intro s t v
    exact congrArg Except.ok (hop c d s t v u)

theorem atan2In_shapeless : Shapeless (α := α) fun u c d => c.atan2In u d := by
  intro u c d e h
  have hplane (h : (do
      let y ← c.coordinate
      let x ← d.coordinate
      return calculated (Scalar.atan2 y x) u) = .ok e) :
      e.shape = u ∧ ∀ s t v, (do
        let y ← (c.withShape s).coordinate
        let x ← (d.withShape t).coordinate
        return calculated (Scalar.atan2 y x) v) = .ok (e.withShape v) := by
    obtain ⟨y, hy, h⟩ := exists_of_bind_eq_ok h
    obtain ⟨x, hx, h⟩ := exists_of_bind_eq_ok h
    obtain rfl := Except.ok.inj h
    constructor
    · have hself := withShape_ofNumber (.ofReal (Scalar.atan2 y x)) false u u
      rw [calculated, ← hself, shape_withShape]
    · intro s t v
      rw [coordinate_withShape hy, coordinate_withShape hx]
      exact congrArg Except.ok (withShape_ofNumber _ _ u v).symm
  have hnan (h : .ok (nan u) = (.ok e : Except (AlgebraError α) (Constant α))) :
      e.shape = u ∧ ∀ v, .ok (nan v) = (.ok (e.withShape v) : Except (AlgebraError α) _) := by
    obtain rfl := Except.ok.inj h
    exact ⟨rfl, fun v => rfl⟩
  cases c <;> cases d <;> first | exact hplane h | exact ⟨(hnan h).1, fun s t => (hnan h).2⟩

/-- Whether a constant becomes another one when it is stretched to the other one's shape. -/
structure StretchesTo (c d : Constant α) : Prop where
  shape : c.shape.StretchesTo d.shape
  eq_withShape : d = c.withShape d.shape

end Constant

namespace BinaryFn

/-- What a function of two constants gives in one shape, it gives in every other. -/
theorem onConstants_eq_ok {f : BinaryFn} {c d e : Constant α} (h : f.onConstants c d = .ok e) :
    join? c.shape d.shape = some e.shape ∧
      ∀ s t u, join? s t = some u →
        f.onConstants (c.withShape s) (d.withShape t) = .ok (e.withShape u) := by
  have hjoin {op : Shape → Constant α → Constant α → Except (AlgebraError α) (Constant α)}
      (hop : Constant.Shapeless op)
      (h : (Tensor.joinShapes c.shape d.shape >>= fun u => op u c d) = .ok e) :
      join? c.shape d.shape = some e.shape ∧ ∀ s t u, join? s t = some u →
        (Tensor.joinShapes (c.withShape s).shape (d.withShape t).shape >>= fun u =>
          op u (c.withShape s) (d.withShape t)) = .ok (e.withShape u) := by
    obtain ⟨u, hu, h⟩ := exists_of_bind_eq_ok h
    obtain ⟨hshape, hwith⟩ := hop u c d e h
    refine ⟨hshape ▸ Tensor.joinShapes_eq_ok.mp hu, ?_⟩
    intro s t v hv
    rw [Constant.shape_withShape, Constant.shape_withShape, Tensor.joinShapes_eq_ok.mpr hv]
    exact hwith s t v
  cases f with
  | add => exact hjoin (Constant.shapeless_of_withShape Constant.addIn_withShape) h
  | sub => exact hjoin (Constant.shapeless_of_withShape Constant.subIn_withShape) h
  | mul => exact hjoin (Constant.shapeless_of_withShape Constant.mulIn_withShape) h
  | div => exact hjoin (Constant.shapeless_of_withShape Constant.divIn_withShape) h
  | pow => exact hjoin (Constant.shapeless_of_withShape Constant.powIn_withShape) h
  | atan2 => exact hjoin Constant.atan2In_shapeless h

theorem exists_onConstants {f : BinaryFn} (hf : f ≠ .atan2) {c d : Constant α} {u : Shape}
    (h : join? c.shape d.shape = some u) : ∃ e, f.onConstants c d = .ok e := by
  unfold onConstants
  rw [Tensor.joinShapes_eq_ok.mpr h]
  cases f with
  | atan2 => exact absurd rfl hf
  | _ => exact ⟨_, rfl⟩

end BinaryFn

namespace UnaryFn

theorem toConstant_withShape (x : ExactValue α) (s t : Shape) :
    (x.toConstant s).withShape t = x.toConstant t := by
  cases x with
  | real x => exact Constant.withShape_ofNumber _ _ s t
  | _ => rfl

theorem atNumber_withShape (f : UnaryFn) (n : Number α) (s : Shape) :
    f.atNumber { n with shape := s } = (f.atNumber n).withShape s := by
  have hother : (if f.isUndefinedAt n then Constant.nan s
      else
        let z := f.numberValue n.value
        Constant.ofNumber ⟨z, n.imaginary || !z.isReal, s⟩) =
      (if f.isUndefinedAt n then Constant.nan n.shape
      else
        let z := f.numberValue n.value
        Constant.ofNumber ⟨z, n.imaginary || !z.isReal, n.shape⟩).withShape s := by
    split_ifs
    · rfl
    · exact (Constant.withShape_ofNumber _ _ n.shape s).symm
  cases f with
  | neg | abs => exact (Constant.withShape_ofNumber _ _ n.shape s).symm
  | _ => exact hother

theorem onConstant_withShape (f : UnaryFn) (c : Constant α) (s : Shape) :
    f.onConstant (c.withShape s) = (f.onConstant c).withShape s := by
  cases c with
  | zero r | unity r | negUnity r => exact (toConstant_withShape _ r s).symm
  | nan r => rfl
  | number n => exact f.atNumber_withShape n s

theorem shape_onConstant (f : UnaryFn) (c : Constant α) : (f.onConstant c).shape = c.shape := by
  have hself := f.onConstant_withShape c c.shape
  rw [Constant.withShape_self] at hself
  rw [hself, Constant.shape_withShape]

end UnaryFn

/-- Whether a value becomes another one when it is stretched to the other one's shape. -/
inductive Value.StretchesTo : Value α → Value α → Prop
  | tensor {a b : Tensor α} (h : a.StretchesTo b) : StretchesTo (.tensor a) (.tensor b)
  | symbol {c d : Constant α} (h : c.StretchesTo d) : StretchesTo (.symbol c) (.symbol d)

namespace Value

omit [Scalar α]

theorem StretchesTo.refl (v : Value α) : v.StretchesTo v := by
  cases v with
  | tensor a => exact .tensor (.refl a)
  | symbol c => exact .symbol ⟨.refl c.shape, c.withShape_self.symm⟩

theorem StretchesTo.trans {v w x : Value α} (hvw : v.StretchesTo w) (hwx : w.StretchesTo x) :
    v.StretchesTo x := by
  cases hvw with
  | tensor hab =>
    cases hwx with
    | tensor hbc => exact .tensor (hab.trans hbc)
  | symbol hcd =>
    cases hwx with
    | symbol hde =>
      refine .symbol ⟨hcd.shape.trans hde.shape, ?_⟩
      rw [hde.eq_withShape, hcd.eq_withShape]
      simp

theorem symbol_stretchesTo (c : Constant α) {s : Shape} (h : c.shape.StretchesTo s) :
    (symbol c).StretchesTo (symbol (c.withShape s)) := by
  have hshape := c.shape_withShape s
  exact .symbol ⟨hshape.symm ▸ h, by rw [hshape]⟩

end Value

namespace UnaryFn

theorem shape_onValue (f : UnaryFn) (v : Value α) : (f.onValue v).shape = v.shape := by
  cases v with
  | tensor a => rfl
  | symbol c => exact f.shape_onConstant c

theorem onValue_stretchesTo (f : UnaryFn) {v w : Value α} (h : v.StretchesTo w) :
    (f.onValue v).StretchesTo (f.onValue w) := by
  cases h with
  | tensor h => exact .tensor (h.map f.real)
  | @symbol c d h =>
    have hshape : (f.onConstant c).shape.StretchesTo d.shape := by
      rw [shape_onConstant]
      exact h.shape
    rw [h.eq_withShape, onValue, onValue, onConstant_withShape]
    exact Value.symbol_stretchesTo (f.onConstant c) hshape

end UnaryFn

end FormulaCalculus
