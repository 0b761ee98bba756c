import FormulaCalculus.Proofs.Algebra.RealLine
import FormulaCalculus.Proofs.Derivative.Agreement
import FormulaCalculus.Proofs.Derivative.Shape
import FormulaCalculus.Proofs.Nearness.Values

/-!
Trees over the real line. Where no function leads away from the real line and no constant lies off
it, every calculation ends on the real line too, whatever the variables are, and only shapes can stop
it: those that do not meet, or meet in one that no tensor can have. A symbol can have such a shape,
and then there is no tensor for it to fill.
-/

namespace FormulaCalculus

variable {α β : Type} [Scalar α]

/-- Whether a value is a tensor or a constant on the real line. -/
def Value.OnRealLine : Value α → Prop
  | .tensor _ => True
  | .symbol c => c.OnRealLine

/-- The ends of a calculation that stays on the real line: a value there, or shapes that do not
meet. -/
inductive StaysReal : Except (AlgebraError α) (Value α) → Prop
  | value {v : Value α} (hv : v.OnRealLine) : StaysReal (.ok v)
  | apart (s t : Shape) : StaysReal (.error (.broadcast s t))

theorem StaysReal.bind {m : Except (AlgebraError α) (Value α)}
    {g : Value α → Except (AlgebraError α) (Value α)} (hm : StaysReal m)
    (hg : ∀ v, v.OnRealLine → StaysReal (g v)) : StaysReal (m >>= g) := by
  cases hm with
  | value hv => exact hg _ hv
  | apart s t => exact .apart s t

theorem StaysReal.onRealLine {m : Except (AlgebraError α) (Value α)} {v : Value α}
    (h : StaysReal m) (hv : m = .ok v) : v.OnRealLine := by
  cases h with
  | value hreal => exact Except.ok.inj hv ▸ hreal
  | apart s t => nomatch hv

theorem StaysReal.broadcast {m : Except (AlgebraError α) (Value α)} {e : AlgebraError α}
    (h : StaysReal m) (he : m = .error e) : ∃ s t, e = .broadcast s t := by
  cases h with
  | value hreal => nomatch he
  | apart s t => exact ⟨s, t, (Except.error.inj he).symm⟩

namespace Value

variable {v : Value α}

/-- A value on the real line becomes a tensor of its shape, unless it is a symbol whose shape no
tensor can have. -/
theorem OnRealLine.toTensor (hv : v.OnRealLine) :
    (v.Fillable → ∃ a, v.toTensor = .ok a ∧ a.shape = v.shape) ∧
      (¬ v.Fillable → v.toTensor = .error (.unaddressable v.shape)) := by
  cases v with
  | tensor a => exact ⟨fun _ => ⟨a, rfl, rfl⟩, fun h => absurd trivial h⟩
  | symbol c =>
    rw [toTensor_symbol hv.isReal]
    constructor
    · intro haddressable
      exact ⟨_, Tensor.filled_eq_ok_iff.mpr ⟨haddressable, rfl⟩, rfl⟩
    · intro hlarge
      exact Tensor.filled_eq_error_iff.mpr ⟨Bool.eq_false_iff.mpr hlarge, rfl⟩

end Value

namespace BinaryFn

variable [LawfulScalar α] {f : BinaryFn} {v w r : Value α}

/-- A function of two values on the real line, other than a power, has its value there. -/
theorem onValues_onRealLine (hf : f ≠ .pow) (hv : v.OnRealLine) (hw : w.OnRealLine)
    (h : f.onValues v w = .ok r) : r.OnRealLine := by
  cases r with
  | tensor a => trivial
  | symbol e =>
    by_cases hmixed : v.Mixed w
    · -- beside a tensor, only the undefined value and zero are answered by a symbol
      rcases symbol_of_mixed hf hmixed h with ⟨s, hs⟩ | ⟨hzero, -⟩
      · rw [hs]
        exact .nan s
      · obtain ⟨s, hs⟩ := Value.exists_of_isZero hzero
        rw [hs]
        exact .zero s
    · obtain ⟨c, d, rfl, rfl⟩ := Value.exists_symbols_of_not_mixed hmixed
      obtain ⟨e', he, h⟩ := exists_of_bind_eq_ok h
      obtain rfl := Value.symbol.inj (Except.ok.inj h)
      exact .onConstants hf hv hw he

omit [LawfulScalar α] in
theorem meetsComplex_of_onRealLine (hv : v.OnRealLine) (hw : w.OnRealLine) :
    v.meetsComplex w = false := by
  cases v <;> cases w <;>
    first
    | rfl
    | exact (Bool.not_eq_false' ..).mpr hv.isReal
    | exact (Bool.not_eq_false' ..).mpr hw.isReal

omit [LawfulScalar α] in
theorem isComplexAngle_of_onRealLine (hv : v.OnRealLine) (hw : w.OnRealLine) :
    f.isComplexAngle v w = false := by
  cases v with
  | tensor a => cases f <;> rfl
  | symbol c =>
    cases w with
    | tensor b => cases f <;> rfl
    | symbol d =>
      cases f with
      | atan2 =>
        have hboth : (c.value.isReal && d.value.isReal) = true :=
          Bool.and_eq_true_iff.mpr ⟨hv.isReal, hw.isReal⟩
        simp only [isComplexAngle, hboth, Bool.not_true, Bool.and_false]
      | _ => rfl

theorem onValues_staysReal (hf : f ≠ .pow) (hv : v.OnRealLine) (hw : w.OnRealLine) :
    StaysReal (f.onValues v w) := by
  cases h : f.onValues v w with
  | ok r => exact .value (onValues_onRealLine hf hv hw h)
  | error e =>
    cases e with
    | broadcast s t => exact .apart s t
    | complexMaterialization z name =>
      have hcomplex := (onValues_complexMaterialization_iff.mp ⟨z, name, h⟩).2
      rw [meetsComplex_of_onRealLine hv hw] at hcomplex
      exact Bool.noConfusion hcomplex
    | unsupported use =>
      have hangle := (onValues_unsupported_iff.mp ⟨use, h⟩).2.2
      rw [isComplexAngle_of_onRealLine hv hw] at hangle
      exact Bool.noConfusion hangle
    | unaddressable s => exact absurd h onValues_ne_unaddressable

end BinaryFn

namespace Node

/-- Whether the constants of a tree lie on the real line and no function of it leads away. -/
def HasRealSources : Node α β → Prop
  | constant c => c.OnRealLine
  | tensor _ | variableLeaf _ _ => True
  | unary f a => f.leavesRealLine = false ∧ a.HasRealSources
  | binary f a b => f ≠ .pow ∧ a.HasRealSources ∧ b.HasRealSources

variable {n a : Node α β}

theorem HasRealSources.of_mem_subtrees (h : n.HasRealSources) (ha : a ∈ n.subtrees) :
    a.HasRealSources := by
  induction n with
  | constant c | tensor b | variableLeaf name b =>
    obtain rfl := List.mem_singleton.mp ha
    exact h
  | unary f b ih =>
    rcases List.mem_cons.mp ha with rfl | ha
    · exact h
    · exact ih h.2 ha
  | binary f l r ihl ihr =>
    rcases List.mem_cons.mp ha with rfl | ha
    · exact h
    · exact (List.mem_append.mp ha).elim (ihl h.2.1) (ihr h.2.2)

variable [LawfulScalar α]

theorem HasRealSources.eval (h : n.HasRealSources) (read : β → Tensor α) :
    StaysReal (n.eval read) := by
  induction n with
  | constant c => exact .value h
  | tensor b | variableLeaf name b => exact .value trivial
  | unary f b ih =>
    refine (ih h.2).bind fun v hv => .value ?_
    cases v with
    | tensor a => trivial
    | symbol c => exact UnaryFn.onConstant_onRealLine h.1 hv
  | binary f l r ihl ihr =>
    refine (ihl h.2.1).bind fun v hv => ?_
    refine (ihr h.2.2).bind fun w hw => ?_
    exact BinaryFn.onValues_staysReal h.1 hv hw

/-- A tree with real sources has a value whenever the shapes of its leaves meet in one that a tensor
can have. -/
theorem HasRealSources.exists_value (h : n.HasRealSources) {read : β → Tensor α} {u : Shape}
    (hu : n.leafShape? (fun b => (read b).shape) = some u) (haddressable : u.isAddressable = true) :
    ∃ v, n.eval read = .ok v := by
  induction n generalizing u with
  | constant c => exact ⟨_, rfl⟩
  | tensor b | variableLeaf name b => exact ⟨_, rfl⟩
  | unary f b ih =>
    obtain ⟨v, hv⟩ := ih h.2 hu haddressable
    refine ⟨f.onValue v, ?_⟩
    rw [Node.eval, hv]
    rfl
  | binary f l r ihl ihr =>
    rw [leafShape?_binary] at hu
    obtain ⟨s, hs, hu⟩ := Option.bind_eq_some_iff.mp hu
    obtain ⟨t, ht, hu⟩ := Option.bind_eq_some_iff.mp hu
    obtain ⟨hsu, htu⟩ := Shape.join?_eq_some hu
    obtain ⟨v, hv⟩ := ihl h.2.1 hs (Shape.isAddressable_of_stretchesTo hsu haddressable)
    obtain ⟨w, hw⟩ := ihr h.2.2 ht (Shape.isAddressable_of_stretchesTo htu haddressable)
    have hvreal : v.OnRealLine := (h.2.1.eval read).onRealLine hv
    have hwreal : w.OnRealLine := (h.2.2.eval read).onRealLine hw
    obtain rfl : s = v.shape := Option.some.inj (hs.symm.trans (shape_eval hv))
    obtain rfl : t = w.shape := Option.some.inj (ht.symm.trans (shape_eval hw))
    obtain ⟨q, hq⟩ := BinaryFn.onValues_ok_iff.mpr
      ⟨u, hu, BinaryFn.meetsComplex_of_onRealLine hvreal hwreal,
        BinaryFn.isComplexAngle_of_onRealLine hvreal hwreal, Or.inr haddressable⟩
    refine ⟨q, ?_⟩
    rw [Node.eval, hv, hw]
    exact hq

end Node

end FormulaCalculus
