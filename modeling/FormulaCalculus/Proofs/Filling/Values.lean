import FormulaCalculus.Proofs.Filling.Entries
import FormulaCalculus.Proofs.Scalar.Rational
import FormulaCalculus.Scalar.Double

/-!
A constant may be held as a symbol or as a tensor filled with its value. A function of two values
does the same on both: it succeeds for the same shapes, and wherever both results have a real and
finite entry, the entries are equal.
-/

namespace FormulaCalculus

open Scalar (isFinite isInfinite isNaN)
open LawfulArithmetic LawfulPower
open Shape (join? volume)
open ComplexNumber (gives_ofReal gives_self gives_nan)

variable {α : Type} [Scalar α]

/-- Whether two entries are equal, if both are real and finite. -/
def ComplexNumber.Agrees (z w : ComplexNumber α) : Prop :=
  z.isReal → isFinite z.re → w.isReal → isFinite w.re → z.re == w.re

/-- Whether an entry of a function of two symbols is what the function of their real values is, if
both are finite; where a zero may absorb what is not finite, it has done so. -/
structure ComplexNumber.SymbolEntry (absorbs : Prop) (z : ComplexNumber α) (k : α) : Prop where
  meets : z.Meets k
  absorbed : absorbs → z = .zero ∨ isFinite z.re = false

namespace Value

/-- Whether a value has no imaginary part. -/
def IsReal : Value α → Prop
  | tensor _ => True
  | symbol c => c.IsReal

/-- Whether a value is a tensor or can fill one. -/
def Fillable : Value α → Prop
  | tensor _ => True
  | symbol c => c.shape.isAddressable = true

omit [Scalar α] in
instance : (v : Value α) → Decidable v.Fillable
  | tensor _ => inferInstanceAs (Decidable True)
  | symbol c => inferInstanceAs (Decidable (c.shape.isAddressable = true))

/-- The value as a tensor; a symbol stands in every place of its shape, however large it is. -/
def filling : Value α → Tensor α
  | tensor a => a
  | symbol c => Tensor.replicate c.shape c.real

/-- Whether a value is another one, or the tensor that the other one fills. -/
inductive Fills : Value α → Value α → Prop
  | same (v : Value α) : Fills v v
  | filled {c : Constant α} {a : Tensor α}
      (h : Tensor.filled c.shape c.real = (.ok a : Except (AlgebraError α) (Tensor α))) :
      Fills (symbol c) (tensor a)

variable {v v' w w' : Value α}

theorem shape_filling (v : Value α) : v.filling.shape = v.shape := by
  cases v <;> rfl

theorem Fills.filling_eq (h : v.Fills v') : v'.filling = v.filling := by
  cases h with
  | same => rfl
  | filled ha => exact (Tensor.filled_eq_ok_iff.mp ha).2.symm

theorem Fills.shape_eq (h : v.Fills v') : v'.shape = v.shape := by
  rw [← shape_filling, ← shape_filling, h.filling_eq]

theorem Fills.isZero (h : v.Fills v') (hv : v'.isZero = true) : v.isZero = true := by
  cases h with
  | same => exact hv
  | filled ha => exact Bool.noConfusion hv

theorem Fills.eq_of_symbol {c : Constant α} (h : v.Fills (symbol c)) : v = symbol c := by
  cases h
  rfl

theorem Fills.isReal (h : v.Fills v') (hv : v.IsReal) : v'.IsReal := by
  cases h with
  | same => exact hv
  | filled ha => trivial

/-- A real symbol becomes the tensor that it fills. -/
theorem toTensor_symbol {c : Constant α} (hc : c.IsReal) :
    (symbol c).toTensor = Tensor.filled c.shape c.real := by
  rw [toTensor, realPart_of_isReal hc]
  rfl

/-- Real values are tensors, filled ones if they are symbols. -/
theorem toTensor_eq_ok_iff {a : Tensor α} :
    v.toTensor = .ok a ↔ v.IsReal ∧ v.Fillable ∧ v.filling = a := by
  cases v with
  | tensor b =>
    constructor
    · intro h
      exact ⟨trivial, trivial, Except.ok.inj h⟩
    · rintro ⟨-, -, rfl⟩
      rfl
  | symbol c =>
    by_cases hreal : c.IsReal
    · rw [toTensor_symbol hreal, Tensor.filled_eq_ok_iff]
      exact ⟨fun h => ⟨hreal, h⟩, fun h => h.2⟩
    · have hnone : c.value.asReal? = none := if_neg hreal
      refine ⟨fun h => ?_, fun h => absurd h.1 hreal⟩
      rw [toTensor, realPart, hnone] at h
      cases h

omit [Scalar α] in
/-- Where a tensor can have the shape, nothing stands in the way of filling it. -/
theorem fillable_of_isAddressable (h : v.shape.isAddressable = true) : v.Fillable := by
  cases v with
  | tensor a => trivial
  | symbol c => exact h

end Value

/-- Every entry of the tensor that a symbol fills is the symbol's value. -/
theorem Value.entriesIn_filling {c : Constant α} {s : Shape} (hs : c.shape.StretchesTo s) :
    (symbol c).filling.entriesIn s = List.replicate (volume s) c.real :=
  Tensor.entriesIn_replicate hs c.real

theorem forall₂_replicate {β γ : Type} {R : β → γ → Prop} {x : β} {y : γ} (h : R x y) (n : Nat) :
    List.Forall₂ R (List.replicate n x) (List.replicate n y) := by
  induction n with
  | zero => exact .nil
  | succ n ih => exact .cons h ih

/-- Two lists that both stand to a third one. -/
theorem forall₂_of_common {β γ δ : Type} {R : β → δ → Prop} {S : γ → δ → Prop} {T : β → γ → Prop}
    {l : List β} {m : List γ} {n : List δ} (hR : List.Forall₂ R l n) (hS : List.Forall₂ S m n)
    (h : ∀ x y z, R x z → S y z → T x y) : List.Forall₂ T l m := by
  induction hR generalizing m with
  | nil =>
    cases hS
    exact .nil
  | cons hx _ ih =>
    cases hS with
    | cons hy hm => exact .cons (h _ _ _ hx hy) (ih hm)

theorem zipWith_replicate_right {β γ δ : Type} (f : β → γ → δ) (l : List β) (y : γ) :
    List.zipWith f l (List.replicate l.length y) = l.map fun x => f x y := by
  rw [← List.map_const', List.zipWith_map_right, List.zipWith_self]

theorem zipWith_replicate_left {β γ δ : Type} (f : β → γ → δ) (x : β) (l : List γ) :
    List.zipWith f (List.replicate l.length x) l = l.map fun y => f x y := by
  rw [← List.map_const', List.zipWith_map_left, List.zipWith_self]

theorem YieldsEntries.imp {m : Except (AlgebraError α) (Value α)}
    {s : Shape} {R S : ComplexNumber α → α → Prop} {ks : List α} (h : YieldsEntries m s R ks)
    (himp : ∀ z k, R z k → S z k) : YieldsEntries m s S ks := by
  obtain ⟨r, hr, hshape, hentries⟩ := h
  exact ⟨r, hr, hshape, hentries.imp himp⟩

theorem YieldsEntries.of_eq_ok {m : Except (AlgebraError α) (Value α)} {s : Shape}
    {R : ComplexNumber α → α → Prop} {ks : List α} (h : YieldsEntries m s R ks) {r : Value α}
    (hr : m = .ok r) : r.shape = s ∧ List.Forall₂ R r.entries ks := by
  obtain ⟨q, hq, hshape, hentries⟩ := h
  obtain rfl := Except.ok.inj (hq.symm.trans hr)
  exact ⟨hshape, hentries⟩

namespace BinaryFn

variable [LawfulArithmetic α] [LawfulPower α] {f : BinaryFn} {v v' w w' : Value α} {s : Shape}

/-- The function of the operands' entries. -/
def realEntries (f : BinaryFn) (v w : Value α) (s : Shape) : List α :=
  List.zipWith f.real (v.filling.entriesIn s) (w.filling.entriesIn s)

/-- Unless both operands are symbols, each entry is the function of the operands' entries. -/
theorem entries_onValues (hv : v.IsReal) (hw : w.IsReal) (hs : join? v.shape w.shape = some s)
    (haddressable : s.isAddressable = true) (hboth : v.tensor?.isSome ∨ w.tensor?.isSome) :
    YieldsEntries (f.onValues v w) s
      (ComplexNumber.Entry (f = .mul ∧ (v.isZero ∨ w.isZero))) (f.realEntries v w s) := by
  obtain ⟨hvs, hws⟩ := Shape.join?_eq_some hs
  have hmono {p q : Prop} (hpq : p → q) (z : ComplexNumber α) (k : α) (h : z.Entry p k) :
      z.Entry q k := h.imp_right (And.imp_left hpq)
  cases v with
  | tensor a =>
    cases w with
    | tensor b =>
      obtain ⟨r, hr, rfl, hdata⟩ := Tensor.exists_zipWith (ε := α) f.real hs haddressable
      refine ⟨.tensor r, ?_, rfl, ?_⟩
      · rw [onValues, hr]
        rfl
      · rw [Value.entries, hdata, List.forall₂_map_left_iff]
        exact List.forall₂_same.mpr fun k _ => Or.inl (gives_self k)
    | symbol d =>
      have hentries := f.entries_onTensorConstant hw hs haddressable
      have hlength := Tensor.length_entriesIn_of_stretchesTo (a := a) hvs
      have hreal : f.realEntries (.tensor a) (.symbol d) s =
          (a.entriesIn s).map fun x => f.real x d.real := by
        rw [realEntries, Value.entriesIn_filling hws, ← hlength]
        exact zipWith_replicate_right _ _ _
      rw [hreal]
      exact hentries.imp (hmono fun h => ⟨h.1, Or.inr h.2⟩)
  | symbol c =>
    cases w with
    | tensor b =>
      have hentries := f.entries_onConstantTensor hv hs haddressable
      have hlength := Tensor.length_entriesIn_of_stretchesTo (a := b) hws
      have hreal : f.realEntries (.symbol c) (.tensor b) s =
          (b.entriesIn s).map fun y => f.real c.real y := by
        rw [realEntries, Value.entriesIn_filling hvs, ← hlength]
        exact zipWith_replicate_left _ _ _
      rw [hreal]
      exact hentries.imp (hmono fun h => ⟨h.1, Or.inl h.2⟩)
    | symbol d => simp [Value.tensor?] at hboth

omit [LawfulPower α] in
/-- A product with the symbol for zero is the symbol for zero or undefined. -/
theorem absorbed_mulIn {c d : Constant α} (h : c.isZero ∨ d.isZero) (s : Shape) :
    (c.mulIn s d).value = .zero ∨ isFinite (c.mulIn s d).value.re = false := by
  have hundefined : isFinite (Scalar.nan : α) = false := not_isFinite_of_isNaN isNaN_nan
  have hzero {c : Constant α} (hc : c.isZero = true) : ∃ r, c = .zero r := by
    cases c <;> first | exact ⟨_, rfl⟩ | exact Bool.noConfusion hc
  rcases h with h | h
  · obtain ⟨r, rfl⟩ := hzero h
    cases d with
    | nan t => exact Or.inr hundefined
    | _ => exact Or.inl rfl
  · obtain ⟨r, rfl⟩ := hzero h
    cases c with
    | nan t => exact Or.inr hundefined
    | _ => exact Or.inl rfl

/-- What a function of two symbols gives. -/
theorem entries_onSymbols {c d : Constant α} (hc : c.IsReal) (hd : d.IsReal)
    (hs : join? c.shape d.shape = some s) :
    YieldsEntries (f.onValues (.symbol c) (.symbol d)) s
      (ComplexNumber.SymbolEntry (f = .mul ∧ (c.isZero ∨ d.isZero)))
        (f.realEntries (.symbol c) (.symbol d) s) := by
  obtain ⟨hcs, hds⟩ := Shape.join?_eq_some hs
  obtain ⟨e, he, hmeets⟩ := f.meets_onConstants hc hd hs
  have hshape : e.shape = s :=
    Option.some.inj ((onConstants_eq_ok he).1.symm.trans hs)
  have habsorbed : f = .mul ∧ (c.isZero ∨ d.isZero) →
      e.value = .zero ∨ isFinite e.value.re = false := by
    rintro ⟨rfl, hzero⟩
    have hproduct : e = c.mulIn s d := by
      unfold onConstants at he
      rw [Tensor.joinShapes_eq_ok.mpr hs] at he
      exact (Except.ok.inj he).symm
    rw [hproduct]
    exact absorbed_mulIn hzero s
  refine ⟨.symbol e, ?_, hshape, ?_⟩
  · rw [onValues, he]
    rfl
  · rw [realEntries, Value.entriesIn_filling hcs, Value.entriesIn_filling hds,
      List.zipWith_replicate, Nat.min_self, Value.entries, hshape]
    exact forall₂_replicate ⟨hmeets, habsorbed⟩ _

end BinaryFn

namespace ComplexNumber

variable [LawfulArithmetic α] {p q : Prop} {z w : ComplexNumber α} {k : α}

theorem Agrees.refl (z : ComplexNumber α) : z.Agrees z := fun _ h _ _ => beq_refl _ h

theorem Entry.agrees (hz : z.Entry p k) (hw : w.Entry q k) : z.Agrees w := by
  intro hzreal hzfinite hwreal hwfinite
  rcases hz with hz | ⟨-, rfl, hk⟩
  · have hzk := hz hzreal hzfinite
    rcases hw with hw | ⟨-, rfl, hk⟩
    · exact beq_trans _ _ _ hzk (beq_symm _ _ (hw hwreal hwfinite))
    · rw [isFinite_of_beq _ _ hzk hzfinite] at hk
      exact Bool.noConfusion hk
  · rcases hw with hw | ⟨-, rfl, -⟩
    · rw [isFinite_of_beq _ _ (hw hwreal hwfinite) hwfinite] at hk
      exact Bool.noConfusion hk
    · exact beq_refl _ isFinite_zero

theorem SymbolEntry.agrees (hz : z.SymbolEntry p k) (hw : w.Entry q k) (hqp : q → p) :
    z.Agrees w := by
  intro hzreal hzfinite hwreal hwfinite
  rcases hw with hw | ⟨hq, rfl, -⟩
  · have hwk := hw hwreal hwfinite
    have hk := isFinite_of_beq _ _ hwk hwfinite
    exact beq_trans _ _ _ (hz.meets hk hzreal hzfinite) (beq_symm _ _ hwk)
  · rcases hz.absorbed (hqp hq) with rfl | hinfinite
    · exact beq_refl _ isFinite_zero
    · rw [hzfinite] at hinfinite
      exact Bool.noConfusion hinfinite

end ComplexNumber

namespace BinaryFn

variable [LawfulArithmetic α] [LawfulPower α] {f : BinaryFn} {v v' w w' : Value α} {s : Shape}

/-- Where the joint shape can be addressed, a function of real values succeeds if and only if there
is one. -/
theorem exists_onValues_iff (hv : v.IsReal) (hw : w.IsReal)
    (haddressable : ∀ s, join? v.shape w.shape = some s → s.isAddressable = true) :
    (∃ r, f.onValues v w = .ok r) ↔ ∃ s, join? v.shape w.shape = some s := by
  constructor
  · rintro ⟨r, hr⟩
    exact ⟨r.shape, shape_onValues hr⟩
  · rintro ⟨s, hs⟩
    cases v with
    | symbol c =>
      cases w with
      | symbol d =>
        obtain ⟨r, hr, -⟩ := entries_onSymbols (f := f) hv hw hs
        exact ⟨r, hr⟩
      | tensor b =>
        obtain ⟨r, hr, -⟩ :=
          entries_onValues (f := f) hv hw hs (haddressable s hs) (Or.inr rfl)
        exact ⟨r, hr⟩
    | tensor a =>
      obtain ⟨r, hr, -⟩ := entries_onValues (f := f) hv hw hs (haddressable s hs) (Or.inl rfl)
      exact ⟨r, hr⟩

theorem agrees_onValues (hv : v.IsReal) (hw : w.IsReal) (hv' : v.Fills v') (hw' : w.Fills w')
    (hs : join? v.shape w.shape = some s) (haddressable : s.isAddressable = true) {r r' : Value α}
    (hr : f.onValues v w = .ok r) (hr' : f.onValues v' w' = .ok r') :
    List.Forall₂ ComplexNumber.Agrees r.entries r'.entries := by
  -- What is filled stands to the same numbers as before.
  have hfilled (hboth : v'.tensor?.isSome ∨ w'.tensor?.isSome) :
      YieldsEntries (f.onValues v' w') s
        (ComplexNumber.Entry (f = .mul ∧ (v'.isZero ∨ w'.isZero))) (f.realEntries v w s) := by
    have hs' : join? v'.shape w'.shape = some s := by rwa [hv'.shape_eq, hw'.shape_eq]
    have hentries :=
      entries_onValues (f := f) (hv'.isReal hv) (hw'.isReal hw) hs' haddressable hboth
    rwa [realEntries, hv'.filling_eq, hw'.filling_eq] at hentries
  have hzero (h : f = .mul ∧ (v'.isZero ∨ w'.isZero)) : f = .mul ∧ (v.isZero ∨ w.isZero) :=
    ⟨h.1, h.2.imp hv'.isZero hw'.isZero⟩
  have hagrees (hboth : v'.tensor?.isSome ∨ w'.tensor?.isSome) :
      List.Forall₂ ComplexNumber.Agrees r.entries r'.entries := by
    have hr'entries := ((hfilled hboth).of_eq_ok hr').2
    by_cases hmixed : v.tensor?.isSome ∨ w.tensor?.isSome
    · have hentries := (entries_onValues hv hw hs haddressable hmixed).of_eq_ok hr
      exact forall₂_of_common hentries.2 hr'entries fun z w k hz hw => hz.agrees hw
    · cases v with
      | tensor a => exact absurd (Or.inl rfl) hmixed
      | symbol c =>
        cases w with
        | tensor b => exact absurd (Or.inr rfl) hmixed
        | symbol d =>
          have hentries := (entries_onSymbols hv hw hs).of_eq_ok hr
          exact forall₂_of_common hentries.2 hr'entries fun z w k hz hw => hz.agrees hw hzero
  cases v' with
  | tensor a => exact hagrees (Or.inl rfl)
  | symbol c =>
    cases w' with
    | tensor b => exact hagrees (Or.inr rfl)
    | symbol d =>
      -- Nothing is filled, so both results are the same.
      rw [hv'.eq_of_symbol, hw'.eq_of_symbol] at hr
      obtain rfl := Except.ok.inj (hr.symm.trans hr')
      exact List.forall₂_same.mpr fun z _ => .refl z

end BinaryFn

end FormulaCalculus
