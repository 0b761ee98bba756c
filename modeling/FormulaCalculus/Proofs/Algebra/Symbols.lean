import FormulaCalculus.Proofs.Algebra.Uniform

/-!
Operations with the symbols. Zero and one are neutral where they should be, minus one gives the
opposite, and the undefined value is passed on. The result has the joint shape of the operands, so
that the other operand, which has its own shape, stretches to it.
-/

namespace FormulaCalculus

variable {α : Type} [Scalar α]

/-- Whether a value is the symbol for the undefined value. -/
def Value.IsNan (v : Value α) : Prop := ∃ s, v = .symbol (.nan s)

theorem Constant.negIn_eq (c : Constant α) (s : Shape) :
    c.negIn s = (UnaryFn.neg.onConstant c).withShape s := by
  cases c with
  | number n => exact (Constant.withShape_ofNumber _ _ n.shape s).symm
  | _ => rfl

namespace Value

omit [Scalar α]

theorem stretchesTo_of_combineWith {j : Except (AlgebraError α) Shape} {a : Tensor α}
    {g : α → α} {c : Constant α} {r : Value α}
    (h : (j >>= fun _ => a.combineWith g c) = .ok r) : (tensor (a.map g)).StretchesTo r := by
  obtain ⟨t, _, h⟩ := exists_of_bind_eq_ok h
  obtain ⟨b, hb, h⟩ := exists_of_bind_eq_ok h
  obtain rfl := Except.ok.inj h
  exact .tensor (Tensor.of_mapIn_eq_ok hb).2.2

theorem tensor_stretchesTo_of_combineWith {j : Except (AlgebraError α) Shape} {a : Tensor α}
    {c : Constant α} {r : Value α} (h : (j >>= fun _ => a.combineWith (fun x => x) c) = .ok r) :
    (tensor a).StretchesTo r := by
  have hstretch := stretchesTo_of_combineWith h
  have hmap : a.map (fun x => x) = a := by
    obtain ⟨s, d, hd⟩ := a
    simp only [Tensor.map, List.map_id']
  rwa [hmap] at hstretch

variable {s t : Shape} {c : Constant α} {r : Value α}

theorem symbol_stretchesTo_of_join (hc : c.shape = s ∨ c.shape = t)
    (h : ((Tensor.joinShapes s t : Except (AlgebraError α) Shape) >>= fun u =>
      .ok (.symbol (c.withShape u))) = .ok r) :
    (symbol c).StretchesTo r := by
  obtain ⟨u, hu, h⟩ := exists_of_bind_eq_ok h
  obtain rfl := Except.ok.inj h
  obtain ⟨hs, ht⟩ := Shape.join?_eq_some (Tensor.joinShapes_eq_ok.mp hu)
  rcases hc with rfl | rfl
  · exact symbol_stretchesTo c hs
  · exact symbol_stretchesTo c ht

theorem symbol_stretchesTo_of_constants {op : Shape → Constant α} (hop : ∀ u, op u = c.withShape u)
    (hc : c.shape = s ∨ c.shape = t)
    (h : (((Tensor.joinShapes s t : Except (AlgebraError α) Shape) >>= fun u => .ok (op u)) >>=
      fun e => .ok (.symbol e)) = .ok r) :
    (symbol c).StretchesTo r := by
  obtain ⟨e, he, h⟩ := exists_of_bind_eq_ok h
  obtain ⟨u, hu, he⟩ := exists_of_bind_eq_ok he
  obtain rfl := Except.ok.inj he
  apply symbol_stretchesTo_of_join hc
  rw [hu, ← h, hop]
  rfl

theorem IsNan.of_stretchesTo {v w : Value α} (hv : v.IsNan) (h : v.StretchesTo w) : w.IsNan := by
  obtain ⟨s, rfl⟩ := hv
  cases h with
  | @symbol _ d h => exact ⟨d.shape, congrArg Value.symbol h.eq_withShape⟩

theorem exists_of_isZero {v : Value α} (hv : v.isZero = true) : ∃ s, v = .symbol (.zero s) := by
  cases v with
  | tensor a => exact absurd hv Bool.false_ne_true
  | symbol c =>
    cases c with
    | zero s => exact ⟨s, rfl⟩
    | _ => exact absurd hv Bool.false_ne_true

theorem isZero_of_stretchesTo {v w : Value α} (hv : v.isZero = true) (h : v.StretchesTo w) :
    w.isZero = true := by
  obtain ⟨s, rfl⟩ := exists_of_isZero hv
  cases h with
  | symbol h =>
    rw [isZero, h.eq_withShape]
    rfl

theorem isNan_of_join
    (h : ((Tensor.joinShapes s t : Except (AlgebraError α) Shape) >>= fun u =>
      .ok (.symbol (.nan u))) = .ok r) : r.IsNan := by
  obtain ⟨u, _, h⟩ := exists_of_bind_eq_ok h
  exact ⟨u, (Except.ok.inj h).symm⟩

theorem isNan_of_constants {g : Shape → Constant α} (hg : ∀ u, g u = .nan u)
    (h : (((Tensor.joinShapes s t : Except (AlgebraError α) Shape) >>= fun u => .ok (g u)) >>=
      fun e => .ok (.symbol e)) = .ok r) : r.IsNan := by
  obtain ⟨e, he, h⟩ := exists_of_bind_eq_ok h
  obtain ⟨u, _, he⟩ := exists_of_bind_eq_ok he
  obtain rfl := Except.ok.inj he
  exact ⟨u, by rw [← hg]; exact (Except.ok.inj h).symm⟩

end Value

theorem UnaryFn.isNan_onValue (f : UnaryFn) {v : Value α} (hv : v.IsNan) : (f.onValue v).IsNan := by
  obtain ⟨s, rfl⟩ := hv
  exact ⟨s, rfl⟩

namespace BinaryFn

open Value (stretchesTo_of_combineWith tensor_stretchesTo_of_combineWith symbol_stretchesTo_of_join
  symbol_stretchesTo_of_constants isNan_of_join isNan_of_constants)

variable {s : Shape} {v w r : Value α}

/-- The constants that a function keeps its first operand with. -/
inductive NeutralRight : BinaryFn → Constant α → Prop
  | add_zero (s : Shape) : NeutralRight add (.zero s)
  | sub_zero (s : Shape) : NeutralRight sub (.zero s)
  | mul_unity (s : Shape) : NeutralRight mul (.unity s)
  | div_unity (s : Shape) : NeutralRight div (.unity s)

/-- The constants that a function keeps its second operand with. -/
inductive NeutralLeft : BinaryFn → Constant α → Prop
  | zero_add (s : Shape) : NeutralLeft add (.zero s)
  | unity_mul (s : Shape) : NeutralLeft mul (.unity s)

/-- The constants with which a function gives the opposite of its first operand. -/
inductive OppositeRight : BinaryFn → Constant α → Prop
  | mul_negUnity (s : Shape) : OppositeRight mul (.negUnity s)
  | div_negUnity (s : Shape) : OppositeRight div (.negUnity s)

/-- The constants with which a function gives the opposite of its second operand. -/
inductive OppositeLeft : BinaryFn → Constant α → Prop
  | zero_sub (s : Shape) : OppositeLeft sub (.zero s)
  | negUnity_mul (s : Shape) : OppositeLeft mul (.negUnity s)

theorem NeutralRight.stretchesTo {f : BinaryFn} {d : Constant α} (hd : NeutralRight f d)
    (h : f.onValues v (.symbol d) = .ok r) : v.StretchesTo r := by
  cases v with
  | tensor a => cases hd <;> exact tensor_stretchesTo_of_combineWith h
  | symbol c =>
    cases hd <;>
      exact symbol_stretchesTo_of_constants (fun u => by cases c <;> rfl) (Or.inl rfl) h

theorem NeutralLeft.stretchesTo {f : BinaryFn} {c : Constant α} (hc : NeutralLeft f c)
    (h : f.onValues (.symbol c) v = .ok r) : v.StretchesTo r := by
  cases v with
  | tensor a => cases hc <;> exact tensor_stretchesTo_of_combineWith h
  | symbol d =>
    cases hc <;>
      exact symbol_stretchesTo_of_constants (fun u => by cases d <;> rfl) (Or.inr rfl) h

theorem OppositeRight.stretchesTo {f : BinaryFn} {d : Constant α} (hd : OppositeRight f d)
    (h : f.onValues v (.symbol d) = .ok r) : (UnaryFn.neg.onValue v).StretchesTo r := by
  cases v with
  | tensor a => cases hd <;> exact stretchesTo_of_combineWith h
  | symbol c =>
    have hshape := Or.inl (b := (UnaryFn.neg.onConstant c).shape = d.shape)
      (UnaryFn.neg.shape_onConstant c)
    cases hd <;> refine symbol_stretchesTo_of_constants (fun u => ?_) hshape h
    all_goals
      rw [← Constant.negIn_eq]
      cases c <;> rfl

theorem OppositeLeft.stretchesTo {f : BinaryFn} {c : Constant α} (hc : OppositeLeft f c)
    (h : f.onValues (.symbol c) v = .ok r) : (UnaryFn.neg.onValue v).StretchesTo r := by
  cases v with
  | tensor a => cases hc <;> exact stretchesTo_of_combineWith h
  | symbol d =>
    have hshape := Or.inr (a := (UnaryFn.neg.onConstant d).shape = c.shape)
      (UnaryFn.neg.shape_onConstant d)
    cases hc with
    | zero_sub s =>
      refine symbol_stretchesTo_of_constants (fun u => ?_) hshape h
      have hsum (d : Constant α) : (Constant.zero s).addIn u d = d.withShape u := by
        cases d <;> rfl
      have hsub : (Constant.zero s).subIn u d = (Constant.zero s).addIn u (d.negIn u) := by
        cases d <;> rfl
      rw [hsub, hsum, Constant.negIn_eq, Constant.withShape_withShape]
    | negUnity_mul s =>
      refine symbol_stretchesTo_of_constants (fun u => ?_) hshape h
      rw [← Constant.negIn_eq]
      cases d <;> rfl

/-- The undefined value is passed on by the second operand. -/
theorem isNan_onValues_right {f : BinaryFn} (hw : w.IsNan) (h : f.onValues v w = .ok r) :
    r.IsNan := by
  obtain ⟨t, rfl⟩ := hw
  cases v with
  | tensor a => cases f <;> exact isNan_of_join h
  | symbol c =>
    cases f with
    | pow =>
      refine isNan_of_constants (fun u => ?_) h
      unfold Constant.powIn
      split_ifs
      · rfl
      · cases c <;> rfl
    | _ => cases c <;> exact isNan_of_constants (g := fun u => .nan u) (fun u => rfl) h

/-- The undefined value is passed on by the first operand, except in a power. -/
theorem isNan_onValues_left {f : BinaryFn} (hf : f ≠ .pow) (hv : v.IsNan)
    (h : f.onValues v w = .ok r) : r.IsNan := by
  obtain ⟨t, rfl⟩ := hv
  cases w with
  | tensor b => cases f <;> exact isNan_of_join h
  | symbol d =>
    cases f with
    | pow => exact absurd rfl hf
    | div =>
      refine isNan_of_constants (fun u => ?_) h
      unfold Constant.divIn
      split_ifs
      · rfl
      · cases d <;> rfl
    | _ => cases d <;> exact isNan_of_constants (g := fun u => .nan u) (fun u => rfl) h

theorem zero_mul_onValues (h : mul.onValues (.symbol (.zero s)) v = .ok r) :
    r.IsNan ∨ (Value.symbol (.zero s)).StretchesTo r := by
  cases v with
  | tensor a => exact Or.inr (symbol_stretchesTo_of_join (Or.inl rfl) h)
  | symbol c =>
    cases c with
    | nan t => exact Or.inl (isNan_of_constants (fun u => rfl) h)
    | _ => exact Or.inr (symbol_stretchesTo_of_constants (fun u => rfl) (Or.inl rfl) h)

theorem mul_zero_onValues (h : mul.onValues v (.symbol (.zero s)) = .ok r) :
    r.IsNan ∨ (Value.symbol (.zero s)).StretchesTo r := by
  cases v with
  | tensor a => exact Or.inr (symbol_stretchesTo_of_join (Or.inr rfl) h)
  | symbol c =>
    cases c with
    | nan t => exact Or.inl (isNan_of_constants (fun u => rfl) h)
    | _ => exact Or.inr (symbol_stretchesTo_of_constants (fun u => rfl) (Or.inr rfl) h)

theorem pow_zero_onValues (h : pow.onValues v (.symbol (.zero s)) = .ok r) :
    (Value.symbol (.unity s)).StretchesTo r := by
  cases v with
  | tensor a => exact symbol_stretchesTo_of_join (c := .unity s) (Or.inr rfl) h
  | symbol c =>
    refine symbol_stretchesTo_of_constants (c := .unity s) ?_ (Or.inr rfl) h
    intro u
    unfold Constant.powIn
    split_ifs
    · rfl
    · cases c <;> rfl

/-- A power with exponent one is the base. The exception is a base that is a number flagged
imaginary whose value is zero: its power is the symbol for zero. -/
theorem pow_unity_onValues (hv : v.WellFormed) (h : pow.onValues v (.symbol (.unity s)) = .ok r) :
    r.isZero = true ∨ v.StretchesTo r := by
  cases v with
  | tensor a => exact Or.inr (tensor_stretchesTo_of_combineWith h)
  | symbol c =>
    cases hzero : c.hasZeroValue with
    | true =>
      obtain ⟨e, he, h⟩ := exists_of_bind_eq_ok h
      obtain ⟨u, _, he⟩ := exists_of_bind_eq_ok he
      obtain rfl := Except.ok.inj he
      obtain rfl := Except.ok.inj h
      left
      rw [Constant.powIn, if_pos hzero]
      rfl
    | false =>
      right
      refine symbol_stretchesTo_of_constants ?_ (Or.inl rfl) h
      intro u
      rw [Constant.powIn, if_neg (by simp [hzero])]
      cases c with
      | zero t => exact absurd hzero Bool.true_eq_false.mp
      | number n =>
        have hnumber := Constant.ofNumber_eq_number (n := n) hv
        have hwith := Constant.withShape_ofNumber n.value n.imaginary n.shape u
        exact hwith.symm.trans (congrArg (Constant.withShape u) hnumber)
      | _ => rfl

end BinaryFn

end FormulaCalculus
