import Mathlib.Data.List.GetD
import FormulaCalculus.Proofs.Algebra.Symbols
import FormulaCalculus.Proofs.Filling.Values
import FormulaCalculus.Proofs.Nearness.Constants
import FormulaCalculus.Proofs.Tensor.JointShape

/-!
The entry of a value at one place of a shape that it stretches to. The entry of a sum, a difference,
a product or a quotient is what the function yields of the operands' entries, whether the operands
are tensors or symbols.
-/

namespace FormulaCalculus

open Scalar (isNaN)
open LawfulRounding
open Shape (join? volume)
open ComplexNumber (isReal_ofReal)

variable {α : Type} [Scalar α]

/-- A place of a shape that a tensor can have. -/
structure Shape.IsPlace (t : Shape) (p : Nat) : Prop where
  isAddressable : t.isAddressable = true
  lt_volume : p < volume t
  ne_nil : t ≠ []

/-- The entry of a value that is stretched to a shape; that of a symbol is its real part. -/
def Value.entryAt (t : Shape) (p : Nat) (v : Value α) : α :=
  (v.filling.entriesIn t).getD p Scalar.nan

section Places

variable {t : Shape} {p : Nat} {v w : Value α} {c : Constant α} {a b r : Tensor α}

theorem Value.entryAt_symbol (ht : t.IsPlace p) (hc : c.shape.StretchesTo t) :
    (symbol c).entryAt t p = c.real := by
  have hlt : p < (List.replicate (volume t) c.real).length := by
    rw [List.length_replicate]
    exact ht.lt_volume
  rw [entryAt, entriesIn_filling hc, List.getD_eq_getElem _ _ hlt,
    List.getElem_replicate]

/-- A value has the same entries before and after stretching. -/
theorem Value.entriesIn_stretchesTo (h : v.StretchesTo w) (hw : w.shape.StretchesTo t) :
    v.filling.entriesIn t = w.filling.entriesIn t := by
  cases h with
  | tensor h => exact (Tensor.entriesIn_trans h.shape hw h.data).symm
  | @symbol c d h =>
    have hreal : d.real = c.real := by
      rw [Constant.real, h.eq_withShape, Constant.value_withShape]
      rfl
    rw [entriesIn_filling (h.shape.trans hw), entriesIn_filling hw, hreal]

theorem Value.entryAt_stretchesTo (h : v.StretchesTo w) (hw : w.shape.StretchesTo t) :
    v.entryAt t p = w.entryAt t p :=
  congrArg (List.getD · p _) (entriesIn_stretchesTo h hw)

theorem Value.entryAt_map (ht : t.IsPlace p) (ha : a.shape.StretchesTo t) (g : α → α) :
    (tensor (a.map g)).entryAt t p = g ((tensor a).entryAt t p) := by
  have hlength := Tensor.length_entriesIn_of_stretchesTo ha
  have hlt : p < (a.entriesIn t).length := hlength.symm ▸ ht.lt_volume
  have hmap : p < ((a.entriesIn t).map g).length := by rwa [List.length_map]
  rw [entryAt, entryAt, filling, filling, Tensor.entriesIn_map g ha, List.getD_eq_getElem _ _ hmap,
    List.getD_eq_getElem _ _ hlt, List.getElem_map]

theorem Value.entryAt_zipWith {f : α → α → α} (ht : t.IsPlace p) (ha : a.shape.StretchesTo t)
    (hb : b.shape.StretchesTo t)
    (h : a.zipWith f b = (.ok r : Except (AlgebraError α) (Tensor α))) :
    (tensor r).entryAt t p = f ((tensor a).entryAt t p) ((tensor b).entryAt t p) := by
  obtain ⟨hjoin, haddressable, hdata⟩ := Tensor.of_zipWith_eq_ok h
  obtain ⟨har, hbr⟩ := Shape.join?_eq_some hjoin
  have hrt := Shape.StretchesTo.of_join hjoin ha hb
  obtain ⟨u, d, hd⟩ := r
  obtain rfl : d = List.zipWith f (a.entriesIn u) (b.entriesIn u) := hdata
  have hlengtha := Tensor.length_entriesIn_of_stretchesTo har
  have hlengthb := Tensor.length_entriesIn_of_stretchesTo hbr
  -- both operands are stretched to the shape of the result on the way
  have hleft := Tensor.entriesIn_trans (b := ⟨u, a.entriesIn u, hlengtha⟩) har hrt rfl
  have hright := Tensor.entriesIn_trans (b := ⟨u, b.entriesIn u, hlengthb⟩) hbr hrt rfl
  have hentries := Tensor.entriesIn_zipWith f hrt hlengtha hlengthb hd
  rw [hleft, hright] at hentries
  have hlta : p < (a.entriesIn t).length :=
    (Tensor.length_entriesIn_of_stretchesTo ha).symm ▸ ht.lt_volume
  have hltb : p < (b.entriesIn t).length :=
    (Tensor.length_entriesIn_of_stretchesTo hb).symm ▸ ht.lt_volume
  have hlt : p < (List.zipWith f (a.entriesIn t) (b.entriesIn t)).length := by
    rw [List.length_zipWith]
    exact lt_min hlta hltb
  rw [entryAt, entryAt, entryAt, filling, filling, filling, hentries, List.getD_eq_getElem _ _ hlt,
    List.getD_eq_getElem _ _ hlta, List.getD_eq_getElem _ _ hltb, List.getElem_zipWith]

end Places

namespace BinaryFn

variable [LawfulRounding α] {f : BinaryFn} {t : Shape} {p : Nat} {v w r : Value α}
  {a b : Tensor α} {c d : Constant α}

theorem yields_self (x y : α) : f.Yields x y (f.real x y) :=
  yields_of_beq (isNaN_or_beq_self (f.real x y)) (beq_refl _)

/-- Whether a value is real and has an entry that a function yields. -/
structure YieldsEntry (f : BinaryFn) (t : Shape) (p : Nat) (x y : α) (r : Value α) : Prop where
  isReal : r.IsReal
  yields : f.Yields x y (r.entryAt t p)

/-- A short cut that maps the entries of a tensor. -/
theorem yieldsEntry_combineWith {j : Except (AlgebraError α) Shape} {g : α → α} {x y : α}
    (ht : t.IsPlace p) (ha : a.shape.StretchesTo t) (hr : r.shape.StretchesTo t)
    (hg : isNaN (g ((Value.tensor a).entryAt t p)) = false →
      f.real x y == g ((Value.tensor a).entryAt t p))
    (h : (j >>= fun _ => a.combineWith g c) = .ok r) : f.YieldsEntry t p x y r := by
  have hstretch := Value.stretchesTo_of_combineWith h
  have hentry := Value.entryAt_stretchesTo (p := p) hstretch hr
  rw [Value.entryAt_map ht ha] at hentry
  constructor
  · cases hstretch
    trivial
  · rw [← hentry]
    exact yields_of_beq (isNaN_or_beq_self _) fun h => beq_symm _ _ (hg h)

omit [LawfulRounding α] in
/-- A short cut that is a symbol. -/
theorem yieldsEntry_symbol {j : Except (AlgebraError α) Shape} {k : Shape → Constant α} {x y : α}
    (ht : t.IsPlace p) (hr : r.shape.StretchesTo t) (hk : ∀ u, f.YieldsReal x y (k u))
    (h : (j >>= fun u => .ok (.symbol (k u))) = .ok r) : f.YieldsEntry t p x y r := by
  obtain ⟨u, -, h⟩ := exists_of_bind_eq_ok h
  obtain rfl := Except.ok.inj h
  refine ⟨(hk u).isReal, ?_⟩
  rw [Value.entryAt_symbol ht hr]
  exact (hk u).yields

theorem yieldsEntry_onTensorConstant (hf : f.IsArithmetic) (ht : t.IsPlace p) (hd : d.IsReal)
    (ha : a.shape.StretchesTo t) (hr : r.shape.StretchesTo t) (h : f.onTensorConstant a d = .ok r) :
    f.YieldsEntry t p ((Value.tensor a).entryAt t p) d.real r := by
  have hentries (hplain : f.onTensorConstant a d =
      (Tensor.joinShapes a.shape d.shape >>= fun _ =>
        Value.realPart f.name d >>= fun y => a.combineWith (fun x => f.real x y) d)) :
      f.YieldsEntry t p ((Value.tensor a).entryAt t p) d.real r := by
    rw [hplain, realPart_of_isReal hd] at h
    exact yieldsEntry_combineWith ht ha hr (beq_refl _) h
  have hnan (u : Shape) :
      f.YieldsReal ((Value.tensor a).entryAt t p) d.real (.nan u : Constant α) :=
    Constant.yieldsReal_nan
  cases d with
  | nan s => cases f <;> exact yieldsEntry_symbol ht hr hnan h
  | zero s =>
    cases f with
    | add => exact yieldsEntry_combineWith ht ha hr (LawfulRounding.add_zero _) h
    | sub => exact yieldsEntry_combineWith ht ha hr LawfulRounding.sub_zero h
    | mul =>
      have hzero : (Scalar.zero : α) == Scalar.zero := LawfulScalar.zero_beq_zero
      exact yieldsEntry_symbol (k := .zero) ht hr
        (fun _ => Constant.yieldsReal_zero (Or.inr hzero)) h
    | div => exact yieldsEntry_symbol ht hr hnan h
    | pow => exact absurd rfl hf.1
    | atan2 => exact absurd rfl hf.2
  | unity s =>
    cases f with
    | mul => exact yieldsEntry_combineWith ht ha hr (LawfulRounding.mul_one _) h
    | div => exact yieldsEntry_combineWith ht ha hr (LawfulRounding.div_one _) h
    | add | sub => exact hentries rfl
    | pow => exact absurd rfl hf.1
    | atan2 => exact absurd rfl hf.2
  | negUnity s =>
    have hneg (x : α) (h : isNaN (-x) = false) : isNaN x = false := by
      rwa [LawfulScalar.isNaN_neg] at h
    cases f with
    | mul =>
      exact yieldsEntry_combineWith ht ha hr (fun h => mul_negOne _ (hneg _ h)) h
    | div =>
      exact yieldsEntry_combineWith ht ha hr (fun h => div_negOne _ (hneg _ h)) h
    | add | sub => exact hentries rfl
    | pow => exact absurd rfl hf.1
    | atan2 => exact absurd rfl hf.2
  | number n => cases f <;> exact hentries rfl

omit [LawfulRounding α] in
theorem zero_div_of_isDivisor {s : Shape} (h : b.isDivisor = true) :
    div.onConstantTensor (.zero s) b =
      (Tensor.joinShapes s b.shape >>= fun u => .ok (.symbol (.zero u))) := by
  rw [onConstantTensor, h]
  rfl

omit [LawfulRounding α] in
theorem zero_div_of_not_isDivisor {s : Shape} (h : ¬ b.isDivisor = true) :
    div.onConstantTensor (.zero s) b =
      (Tensor.joinShapes s b.shape >>= fun _ =>
        b.combineWith (fun y => Scalar.zero / y) (.zero s)) := by
  rw [onConstantTensor, Bool.eq_false_iff.mpr h]
  rfl

theorem yieldsEntry_onConstantTensor (hf : f.IsArithmetic) (ht : t.IsPlace p) (hc : c.IsReal)
    (hb : b.shape.StretchesTo t) (hr : r.shape.StretchesTo t) (h : f.onConstantTensor c b = .ok r) :
    f.YieldsEntry t p c.real ((Value.tensor b).entryAt t p) r := by
  have hentries (hplain : f.onConstantTensor c b =
      (Tensor.joinShapes c.shape b.shape >>= fun _ =>
        Value.realPart f.name c >>= fun x => b.combineWith (fun y => f.real x y) c)) :
      f.YieldsEntry t p c.real ((Value.tensor b).entryAt t p) r := by
    rw [hplain, realPart_of_isReal hc] at h
    exact yieldsEntry_combineWith ht hb hr (beq_refl _) h
  have hneg (x : α) (h : isNaN (-x) = false) : isNaN x = false := by
    rwa [LawfulScalar.isNaN_neg] at h
  have hzero : (Scalar.zero : α) == Scalar.zero := LawfulScalar.zero_beq_zero
  cases c with
  | nan s => cases f <;> exact yieldsEntry_symbol ht hr (fun _ => Constant.yieldsReal_nan) h
  | zero s =>
    cases f with
    | add => exact yieldsEntry_combineWith ht hb hr LawfulRounding.zero_add h
    | sub =>
      exact yieldsEntry_combineWith ht hb hr (fun h => LawfulRounding.zero_sub (hneg _ h)) h
    | mul =>
      exact yieldsEntry_symbol (k := .zero) ht hr
        (fun _ => Constant.yieldsReal_zero (Or.inl hzero)) h
    | div =>
      by_cases hdivisor : b.isDivisor = true
      · rw [zero_div_of_isDivisor hdivisor] at h
        exact yieldsEntry_symbol (k := .zero) ht hr
          (fun _ => Constant.yieldsReal_zero hzero) h
      · rw [zero_div_of_not_isDivisor hdivisor] at h
        exact yieldsEntry_combineWith ht hb hr (beq_refl _) h
    | pow => exact absurd rfl hf.1
    | atan2 => exact absurd rfl hf.2
  | unity s =>
    cases f with
    | mul => exact yieldsEntry_combineWith ht hb hr LawfulRounding.one_mul h
    | add | sub | div => exact hentries rfl
    | pow => exact absurd rfl hf.1
    | atan2 => exact absurd rfl hf.2
  | negUnity s =>
    cases f with
    | mul =>
      exact yieldsEntry_combineWith ht hb hr (fun h => negOne_mul (hneg _ h)) h
    | add | sub | div => exact hentries rfl
    | pow => exact absurd rfl hf.1
    | atan2 => exact absurd rfl hf.2
  | number n => cases f <;> exact hentries rfl

/-- The entry of a sum, a difference, a product or a quotient of real values. -/
theorem yieldsEntry_onValues (hf : f.IsArithmetic) (ht : t.IsPlace p) (hv : v.IsReal)
    (hw : w.IsReal) (hvt : v.shape.StretchesTo t) (hwt : w.shape.StretchesTo t)
    (h : f.onValues v w = .ok r) : f.YieldsEntry t p (v.entryAt t p) (w.entryAt t p) r := by
  have hr := Shape.StretchesTo.of_join (shape_onValues h) hvt hwt
  cases v with
  | tensor a =>
    cases w with
    | tensor b =>
      obtain ⟨q, hq, h⟩ := exists_of_bind_eq_ok h
      obtain rfl := Except.ok.inj h
      refine ⟨trivial, ?_⟩
      rw [Value.entryAt_zipWith ht hvt hwt hq]
      exact yields_self _ _
    | symbol d =>
      rw [Value.entryAt_symbol ht hwt]
      exact yieldsEntry_onTensorConstant hf ht hw hvt hr h
  | symbol c =>
    rw [Value.entryAt_symbol ht hvt]
    cases w with
    | tensor b => exact yieldsEntry_onConstantTensor hf ht hv hwt hr h
    | symbol d =>
      rw [Value.entryAt_symbol ht hwt]
      obtain ⟨e, he, h⟩ := exists_of_bind_eq_ok h
      obtain rfl := Except.ok.inj h
      obtain ⟨hreal, hyields⟩ := yieldsReal_onConstants hf hv hw he
      refine ⟨hreal, ?_⟩
      rw [Value.entryAt_symbol ht hr]
      exact hyields

end BinaryFn

end FormulaCalculus
