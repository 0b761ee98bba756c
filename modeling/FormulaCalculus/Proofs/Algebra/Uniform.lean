import FormulaCalculus.Proofs.Algebra.Stretching
import FormulaCalculus.Proofs.Algebra.WellFormed

/-!
Operations on stretched values. An operation on a tensor and a constant is uniform in the tensor, so
operands that are stretched first give a result that is stretched, with one exception: whether zero
divided by a tensor is the symbol for zero depends on the entries, of which an empty shape has none.
-/

namespace FormulaCalculus

open Shape (join?)

variable {α : Type} [Scalar α]

/-- Whether an operation on a tensor and a shape treats all tensors alike: it gives one well-formed
constant in the joint shape, or maps the entries into the joint shape by one function, or fails. -/
inductive Uniform (op : Tensor α → Shape → Except (AlgebraError α) (Value α)) : Prop
  | constant (c : Constant α) (hc : c.WellFormed)
      (h : ∀ a s v, op a s = .ok v ↔ ∃ t, join? a.shape s = some t ∧ v = .symbol (c.withShape t))
  | entrywise (g : α → α)
      (h : ∀ a s v, op a s = .ok v ↔ ∃ b : Tensor α, a.mapIn g s =
        (.ok b : Except (AlgebraError α) _) ∧ v = .tensor b)
  | undefined (h : ∀ a s v, op a s ≠ .ok v)

namespace Uniform

variable {op : Tensor α → Shape → Except (AlgebraError α) (Value α)}

theorem shape (hop : Uniform op) {a : Tensor α} {s : Shape} {v : Value α} (h : op a s = .ok v) :
    join? a.shape s = some v.shape := by
  cases hop with
  | constant c _ hc =>
    obtain ⟨t, ht, rfl⟩ := (hc a s v).mp h
    rw [ht, Value.shape, Constant.shape_withShape]
  | entrywise g hg =>
    obtain ⟨b, hb, rfl⟩ := (hg a s v).mp h
    exact (Tensor.of_mapIn_eq_ok hb).1
  | undefined hnone => exact absurd h (hnone a s v)

theorem isAddressable (hop : Uniform op) {a b : Tensor α} {s : Shape}
    (h : op a s = .ok (.tensor b)) : b.shape.isAddressable = true := by
  cases hop with
  | constant c _ hc =>
    obtain ⟨t, _, hb⟩ := (hc a s _).mp h
    nomatch hb
  | entrywise g hg =>
    obtain ⟨_, hmap, hb⟩ := (hg a s _).mp h
    obtain rfl := Value.tensor.inj hb
    exact (Tensor.of_mapIn_eq_ok hmap).2.1
  | undefined hnone => exact absurd h (hnone a s _)

theorem wellFormed (hop : Uniform op) {a : Tensor α} {s : Shape} {v : Value α}
    (h : op a s = .ok v) : v.WellFormed := by
  cases hop with
  | constant c hwell hc =>
    obtain ⟨t, _, rfl⟩ := (hc a s v).mp h
    exact hwell.withShape t
  | entrywise g hg =>
    obtain ⟨b, _, rfl⟩ := (hg a s v).mp h
    trivial
  | undefined hnone => exact absurd h (hnone a s v)

theorem stretchesTo (hop : Uniform op) {a b : Tensor α} {s t : Shape} {w : Value α}
    (hab : a.StretchesTo b) (hst : s.StretchesTo t) (h : op b t = .ok w) :
    ∃ v, op a s = .ok v ∧ v.StretchesTo w := by
  cases hop with
  | constant c _ hc =>
    obtain ⟨u, hu, rfl⟩ := (hc b t w).mp h
    obtain ⟨hb, ht⟩ := Shape.join?_eq_some hu
    obtain ⟨r, hr, hru⟩ := Shape.exists_join? (hab.shape.trans hb) (hst.trans ht)
    refine ⟨.symbol (c.withShape r), (hc a s _).mpr ⟨r, hr, rfl⟩, ?_⟩
    have hstretch := Value.symbol_stretchesTo (c.withShape r) (c.shape_withShape r ▸ hru)
    rwa [Constant.withShape_withShape] at hstretch
  | entrywise g hg =>
    obtain ⟨r, hr, rfl⟩ := (hg b t w).mp h
    obtain ⟨q, hq, hqr⟩ := hab.mapIn g hst hr
    exact ⟨.tensor q, (hg a s _).mpr ⟨q, hq, rfl⟩, .tensor hqr⟩
  | undefined hnone => exact absurd h (hnone b t w)

/-- An operation that finds the joint shape first and gives one constant in it. -/
theorem of_constant {join : Shape → Shape → Except (AlgebraError α) Shape}
    (hjoin : ∀ s t u, join s t = .ok u ↔ join? s t = some u) (c : Constant α)
    (hc : c.WellFormed) :
    Uniform fun a s => join a.shape s >>= fun t => .ok (.symbol (c.withShape t)) := by
  refine .constant c hc ?_
  intro a s v
  constructor
  · intro h
    obtain ⟨t, ht, h⟩ := exists_of_bind_eq_ok h
    exact ⟨t, (hjoin _ _ _).mp ht, (Except.ok.inj h).symm⟩
  · rintro ⟨t, ht, rfl⟩
    rw [(hjoin _ _ _).mpr ht]
    rfl

/-- An operation that finds the joint shape first and maps the entries into it. -/
theorem of_combineWith {join : Shape → Shape → Except (AlgebraError α) Shape}
    (hjoin : ∀ s t u, join s t = .ok u ↔ join? s t = some u) (c : Constant α) (g : α → α) :
    Uniform fun a s => join a.shape s >>= fun _ => a.combineWith g (c.withShape s) := by
  refine .entrywise g ?_
  intro a s v
  constructor
  · intro h
    obtain ⟨t, ht, h⟩ := exists_of_bind_eq_ok h
    obtain ⟨b, hb, h⟩ := exists_of_bind_eq_ok h
    rw [Constant.shape_withShape] at hb
    exact ⟨b, hb, (Except.ok.inj h).symm⟩
  · rintro ⟨b, hb, rfl⟩
    have ht := (Tensor.of_mapIn_eq_ok hb).1
    rw [(hjoin _ _ _).mpr ht]
    change a.combineWith g (c.withShape s) = _
    rw [Tensor.combineWith, Constant.shape_withShape, hb]
    rfl

/-- An operation that maps the entries by a function of the constant's real value. -/
theorem of_realPart {join : Shape → Shape → Except (AlgebraError α) Shape}
    (hjoin : ∀ s t u, join s t = .ok u ↔ join? s t = some u) (c : Constant α) (name : String)
    (g : α → α → α) :
    Uniform fun a s => join a.shape s >>= fun _ => Value.realPart name (c.withShape s) >>= fun y =>
      a.combineWith (g y) (c.withShape s) := by
  cases hreal : c.value.asReal? with
  | none =>
    refine .undefined ?_
    intro a s v h
    obtain ⟨t, _, h⟩ := exists_of_bind_eq_ok h
    obtain ⟨y, hy, _⟩ := exists_of_bind_eq_ok h
    rw [Value.realPart, Constant.value_withShape, hreal] at hy
    nomatch hy
  | some y =>
    have hpart (s : Shape) : Value.realPart name (c.withShape s) = .ok y := by
      rw [Value.realPart, Constant.value_withShape, hreal]
    simp only [hpart]
    exact of_combineWith hjoin c (g y)

end Uniform

namespace BinaryFn

theorem onTensorConstant_uniform (f : BinaryFn) (c : Constant α) :
    Uniform fun a s => f.onTensorConstant a (c.withShape s) := by
  have hjoin (s t u : Shape) :
      (Tensor.joinShapes s t : Except (AlgebraError α) Shape) = .ok u ↔ join? s t = some u :=
    Tensor.joinShapes_eq_ok
  have hreal := Uniform.of_realPart hjoin c f.name fun y x => f.real x y
  cases c with
  | nan r => exact .of_constant hjoin (.nan r) trivial
  | zero r =>
    cases f with
    | add | sub => exact .of_combineWith hjoin (.zero r) fun x => x
    | mul => exact .of_constant hjoin (.zero r) trivial
    | div => exact .of_constant hjoin (.nan r) trivial
    | pow => exact .of_constant hjoin (.unity r) trivial
    | atan2 => exact hreal
  | unity r =>
    cases f with
    | mul | div | pow => exact .of_combineWith hjoin (.unity r) fun x => x
    | add | sub | atan2 => exact hreal
  | negUnity r =>
    cases f with
    | mul | div => exact .of_combineWith hjoin (.negUnity r) fun x => -x
    | pow => exact .of_combineWith hjoin (.negUnity r) fun x => Scalar.one / x
    | add | sub | atan2 => exact hreal
  | number n => cases f <;> exact hreal

/-- The exception is the quotient with numerator zero, which is the symbol for zero if each entry
can divide it. -/
theorem onConstantTensor_uniform (f : BinaryFn) (c : Constant α) :
    (Uniform fun a s => f.onConstantTensor (c.withShape s) a) ∨
      f = .div ∧ c.isZero = true := by
  have hjoin (s t u : Shape) :
      (Tensor.joinShapes t s : Except (AlgebraError α) Shape) = .ok u ↔ join? s t = some u := by
    rw [Tensor.joinShapes_eq_ok, Shape.join?_comm]
  have hreal := Uniform.of_realPart hjoin c f.name fun x y => f.real x y
  cases c with
  | nan r => exact .inl (.of_constant hjoin (.nan r) trivial)
  | zero r =>
    cases f with
    | add => exact .inl (.of_combineWith hjoin (.zero r) fun x => x)
    | sub => exact .inl (.of_combineWith hjoin (.zero r) fun x => -x)
    | mul => exact .inl (.of_constant hjoin (.zero r) trivial)
    | div => exact .inr ⟨rfl, rfl⟩
    | pow | atan2 => exact .inl hreal
  | unity r =>
    cases f with
    | mul => exact .inl (.of_combineWith hjoin (.unity r) fun x => x)
    | pow => exact .inl (.of_constant hjoin (.unity r) trivial)
    | add | sub | div | atan2 => exact .inl hreal
  | negUnity r =>
    cases f with
    | mul => exact .inl (.of_combineWith hjoin (.negUnity r) fun x => -x)
    | add | sub | div | pow | atan2 => exact .inl hreal
  | number n => exact .inl (by cases f <;> exact hreal)

/-- Zero divided by a tensor, each entry of which can divide it or not. -/
theorem zeroDiv_uniform (r : Shape) :
    ∃ op op' : Tensor α → Shape → Except (AlgebraError α) (Value α), Uniform op ∧ Uniform op' ∧
      (∀ a s v, op a s = .ok v → v.isZero = true) ∧
      ∀ a s, div.onConstantTensor (.zero s) a = if a.isDivisor then op a s else op' a s := by
  have hjoin (s t u : Shape) :
      (Tensor.joinShapes t s : Except (AlgebraError α) Shape) = .ok u ↔ join? s t = some u := by
    rw [Tensor.joinShapes_eq_ok, Shape.join?_comm]
  refine ⟨_, _, .of_constant hjoin (.zero r) trivial,
    .of_combineWith hjoin (.zero r) fun x => Scalar.zero / x, ?_, ?_⟩
  · intro a s v h
    obtain ⟨t, _, h⟩ := exists_of_bind_eq_ok h
    obtain rfl := Except.ok.inj h
    rfl
  · intro a s
    cases hdivisor : a.isDivisor <;> simp only [onConstantTensor, hdivisor] <;> rfl

theorem exists_uniform_of_onConstantTensor {f : BinaryFn} {c : Constant α} {a : Tensor α}
    {r : Value α} (h : f.onConstantTensor c a = .ok r) :
    ∃ op, Uniform op ∧ op a c.shape = .ok r := by
  rcases f.onConstantTensor_uniform c with hop | ⟨rfl, hzero⟩
  · refine ⟨_, hop, ?_⟩
    rw [Constant.withShape_self]
    exact h
  · cases c with
    | zero s =>
      obtain ⟨op, op', hop, hop', _, heq⟩ := zeroDiv_uniform (α := α) s
      rw [heq] at h
      split_ifs at h
      · exact ⟨op, hop, h⟩
      · exact ⟨op', hop', h⟩
    | _ => exact absurd hzero Bool.false_ne_true

theorem exists_uniform_of_onTensorConstant {f : BinaryFn} {c : Constant α} {a : Tensor α}
    {r : Value α} (h : f.onTensorConstant a c = .ok r) :
    ∃ op, Uniform op ∧ op a c.shape = .ok r := by
  refine ⟨_, f.onTensorConstant_uniform c, ?_⟩
  rw [Constant.withShape_self]
  exact h

/-- A function of two values has the joint shape of the two. -/
theorem shape_onValues {f : BinaryFn} {v w r : Value α} (h : f.onValues v w = .ok r) :
    join? v.shape w.shape = some r.shape := by
  cases v with
  | tensor a =>
    cases w with
    | tensor b =>
      obtain ⟨q, hq, h⟩ := exists_of_bind_eq_ok h
      obtain rfl := Except.ok.inj h
      exact (Tensor.of_zipWith_eq_ok hq).1
    | symbol d =>
      obtain ⟨op, hop, hr⟩ := exists_uniform_of_onTensorConstant h
      exact hop.shape hr
  | symbol c =>
    cases w with
    | tensor b =>
      obtain ⟨op, hop, hr⟩ := exists_uniform_of_onConstantTensor h
      rw [Shape.join?_comm]
      exact hop.shape hr
    | symbol d =>
      obtain ⟨e, he, h⟩ := exists_of_bind_eq_ok h
      obtain rfl := Except.ok.inj h
      exact (onConstants_eq_ok he).1

/-- A tensor that a function of two values gives can be addressed. -/
theorem isAddressable_onValues {f : BinaryFn} {v w : Value α} {a : Tensor α}
    (h : f.onValues v w = .ok (.tensor a)) : a.shape.isAddressable = true := by
  cases v with
  | tensor b =>
    cases w with
    | tensor c =>
      obtain ⟨q, hq, h⟩ := exists_of_bind_eq_ok h
      obtain rfl := Value.tensor.inj (Except.ok.inj h)
      exact (Tensor.of_zipWith_eq_ok hq).2.1
    | symbol d =>
      obtain ⟨op, hop, hr⟩ := exists_uniform_of_onTensorConstant h
      exact hop.isAddressable hr
  | symbol c =>
    cases w with
    | tensor b =>
      obtain ⟨op, hop, hr⟩ := exists_uniform_of_onConstantTensor h
      exact hop.isAddressable hr
    | symbol d =>
      obtain ⟨e, _, h⟩ := exists_of_bind_eq_ok h
      nomatch Except.ok.inj h

/-- A function of well-formed values gives a well-formed value. -/
theorem onValues_wellFormed [LawfulScalar α] {f : BinaryFn} {v w r : Value α} (hv : v.WellFormed)
    (hw : w.WellFormed) (h : f.onValues v w = .ok r) : r.WellFormed := by
  cases v with
  | tensor a =>
    cases w with
    | tensor b =>
      obtain ⟨q, _, h⟩ := exists_of_bind_eq_ok h
      obtain rfl := Except.ok.inj h
      trivial
    | symbol d =>
      obtain ⟨op, hop, hr⟩ := exists_uniform_of_onTensorConstant h
      exact hop.wellFormed hr
  | symbol c =>
    cases w with
    | tensor b =>
      obtain ⟨op, hop, hr⟩ := exists_uniform_of_onConstantTensor h
      exact hop.wellFormed hr
    | symbol d =>
      obtain ⟨e, he, h⟩ := exists_of_bind_eq_ok h
      obtain rfl := Except.ok.inj h
      exact onConstants_wellFormed hv hw he

theorem isDivisor_of_stretchesTo {a b : Tensor α} (h : a.StretchesTo b)
    (ha : a.isDivisor = true) : b.isDivisor = true := by
  rw [Tensor.isDivisor, List.all_eq_true] at ha ⊢
  intro x hx
  rw [h.data] at hx
  exact ha x (Tensor.mem_of_mem_entriesIn hx)

theorem onConstantTensor_stretchesTo {f : BinaryFn} {c d : Constant α} {a b : Tensor α}
    {r : Value α} (hc : c.StretchesTo d) (ha : a.StretchesTo b)
    (h : f.onConstantTensor d b = .ok r) :
    (∃ q, f.onConstantTensor c a = .ok q ∧ q.StretchesTo r) ∨
      f = .div ∧ r.isZero = true ∧ a ≠ b := by
  rw [hc.eq_withShape] at h
  rcases f.onConstantTensor_uniform c with hop | ⟨rfl, hzero⟩
  · have hq := hop.stretchesTo ha hc.shape h
    rw [Constant.withShape_self] at hq
    exact Or.inl hq
  · cases c with
    | zero s =>
      obtain ⟨op, op', hop, hop', hopZero, heq⟩ := zeroDiv_uniform (α := α) s
      change div.onConstantTensor (.zero d.shape) b = .ok r at h
      rw [heq] at h
      rw [heq]
      -- Stretched along an axis of length zero, a tensor loses the entries that cannot divide.
      by_cases hdiva : a.isDivisor = true
      · rw [if_pos (isDivisor_of_stretchesTo ha hdiva)] at h
        rw [if_pos hdiva]
        exact Or.inl (hop.stretchesTo ha hc.shape h)
      · by_cases hdivb : b.isDivisor = true
        · rw [if_pos hdivb] at h
          refine Or.inr ⟨rfl, hopZero b d.shape r h, ?_⟩
          rintro rfl
          exact hdiva hdivb
        · rw [if_neg hdivb] at h
          rw [if_neg hdiva]
          exact Or.inl (hop'.stretchesTo ha hc.shape h)
    | _ => exact absurd hzero Bool.false_ne_true

theorem onConstants_stretchesTo {f : BinaryFn} {c c' d d' e : Constant α} (hc : c.StretchesTo c')
    (hd : d.StretchesTo d') (h : f.onConstants c' d' = .ok e) :
    ∃ q, f.onConstants c d = .ok q ∧ q.StretchesTo e := by
  obtain ⟨hjoin, hwith⟩ := onConstants_eq_ok h
  obtain ⟨hce, hde⟩ := Shape.join?_eq_some hjoin
  obtain ⟨u, hu, hue⟩ := Shape.exists_join? (hc.shape.trans hce) (hd.shape.trans hde)
  have hsame {x y : Constant α} (hxy : x.StretchesTo y) : y.withShape x.shape = x := by
    rw [hxy.eq_withShape, Constant.withShape_withShape, Constant.withShape_self]
  have hq := hwith c.shape d.shape u hu
  rw [hsame hc, hsame hd] at hq
  refine ⟨e.withShape u, hq, ?_, ?_⟩
  · rwa [Constant.shape_withShape]
  · rw [Constant.withShape_withShape, Constant.withShape_self]

/-- A function of values that are stretched first gives a value that is stretched. Only where the
quotient of zero by a stretched tensor is the symbol for zero, it need not be so before. -/
theorem onValues_stretchesTo {f : BinaryFn} {v v' w w' r : Value α} (hv : v.StretchesTo v')
    (hw : w.StretchesTo w') (h : f.onValues v' w' = .ok r) :
    (∃ q, f.onValues v w = .ok q ∧ q.StretchesTo r) ∨
      f = .div ∧ r.isZero = true ∧ w ≠ w' := by
  cases hv with
  | tensor hv =>
    cases hw with
    | tensor hw =>
      obtain ⟨r, hr, h⟩ := exists_of_bind_eq_ok h
      obtain rfl := Except.ok.inj h
      obtain ⟨q, hq, hqr⟩ := Tensor.StretchesTo.zipWith f.real hv hw hr
      refine Or.inl ⟨.tensor q, ?_, .tensor hqr⟩
      rw [onValues, hq]
      rfl
    | @symbol d d' hw =>
      change f.onTensorConstant _ d' = .ok r at h
      rw [hw.eq_withShape] at h
      have hq := (f.onTensorConstant_uniform d).stretchesTo hv hw.shape h
      rw [Constant.withShape_self] at hq
      exact Or.inl hq
  | symbol hv =>
    cases hw with
    | tensor hw =>
      refine (onConstantTensor_stretchesTo hv hw h).imp_right ?_
      rintro ⟨hf, hzero, hne⟩
      exact ⟨hf, hzero, fun heq => hne (Value.tensor.inj heq)⟩
    | symbol hw =>
      obtain ⟨e, he, h⟩ := exists_of_bind_eq_ok h
      obtain rfl := Except.ok.inj h
      obtain ⟨q, hq, hqe⟩ := onConstants_stretchesTo hv hw he
      refine Or.inl ⟨.symbol q, ?_, .symbol hqe⟩
      rw [onValues, hq]
      rfl

end BinaryFn

end FormulaCalculus
