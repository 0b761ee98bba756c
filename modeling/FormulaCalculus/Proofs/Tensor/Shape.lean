import Mathlib.Data.List.Forall2
import Mathlib.Tactic.SplitIfs
import FormulaCalculus.Tensor.Basic

/-!
Stretching as an order on shapes. One shape stretches to another if it does so axis by axis from the
innermost one, and the joint shape of two shapes is the least one that both stretch to.
-/

namespace FormulaCalculus

namespace Shape

/-- Whether an axis is as long as another one or of length one. -/
def AxisStretches (m n : Nat) : Prop := m = n ∨ m = 1

/-- Whether a shape stretches to another one, for shapes written innermost axis first. -/
def InnerStretches : Shape → Shape → Prop
  | [], _ => True
  | _ :: _, [] => False
  | m :: s, n :: t => AxisStretches m n ∧ InnerStretches s t

/-- Whether a tensor of the first shape can be stretched to the second one. -/
def StretchesTo (s t : Shape) : Prop := aligned (padTo s t) t = true

theorem aligned_iff_forall₂ {s t : Shape} :
    aligned s t = true ↔ List.Forall₂ AxisStretches s t := by
  induction s generalizing t with
  | nil =>
    cases t with
    | nil => simp [aligned]
    | cons n t => simp [aligned]
  | cons m s ih =>
    cases t with
    | nil => simp [aligned]
    | cons n t => simp [aligned, ih, AxisStretches]

theorem forall₂_ones (t : Shape) : List.Forall₂ AxisStretches (List.replicate t.length 1) t := by
  induction t with
  | nil => exact .nil
  | cons n t ih => exact .cons (Or.inr rfl) ih

theorem forall₂_padded_iff {s t : Shape} :
    List.Forall₂ AxisStretches (s ++ List.replicate (t.length - s.length) 1) t ↔
      InnerStretches s t := by
  induction s generalizing t with
  | nil => simpa [InnerStretches] using forall₂_ones t
  | cons m s ih =>
    cases t with
    | nil => simp [InnerStretches]
    | cons n t =>
      rw [List.cons_append, List.forall₂_cons, List.length_cons, List.length_cons,
        Nat.add_sub_add_right, ih]
      rfl

theorem stretchesTo_iff {s t : Shape} :
    StretchesTo s t ↔ InnerStretches s.reverse t.reverse := by
  rw [StretchesTo, aligned_iff_forall₂, ← List.forall₂_reverse_iff, padTo, List.reverse_append,
    List.reverse_replicate, ← forall₂_padded_iff, List.length_reverse, List.length_reverse]

theorem InnerStretches.refl (s : Shape) : InnerStretches s s := by
  induction s with
  | nil => trivial
  | cons n s ih => exact ⟨Or.inl rfl, ih⟩

theorem AxisStretches.trans {k m n : Nat} (h : AxisStretches k m) (h' : AxisStretches m n) :
    AxisStretches k n := by
  rcases h with rfl | rfl
  · exact h'
  · exact Or.inr rfl

theorem InnerStretches.trans {s t u : Shape} (h : InnerStretches s t) (h' : InnerStretches t u) :
    InnerStretches s u := by
  induction s generalizing t u with
  | nil => trivial
  | cons k s ih =>
    cases t with
    | nil => exact h.elim
    | cons m t =>
      cases u with
      | nil => exact h'.elim
      | cons n u => exact ⟨h.1.trans h'.1, ih h.2 h'.2⟩

theorem joinAxis_eq_some {m n k : Nat} (h : joinAxis m n = some k) :
    AxisStretches m k ∧ AxisStretches n k := by
  unfold joinAxis at h
  unfold AxisStretches
  split_ifs at h with hleft hright
  · obtain rfl := Option.some.inj h
    omega
  · obtain rfl := Option.some.inj h
    omega

theorem exists_joinAxis {m n p : Nat} (hm : AxisStretches m p) (hn : AxisStretches n p) :
    ∃ k, joinAxis m n = some k ∧ AxisStretches k p := by
  unfold joinAxis
  unfold AxisStretches at hm hn ⊢
  split_ifs with hleft hright
  · exact ⟨m, rfl, hm⟩
  · exact ⟨n, rfl, hn⟩
  · omega

theorem joinInner_eq_some {s t u : Shape} (h : joinInner s t = some u) :
    InnerStretches s u ∧ InnerStretches t u := by
  induction s generalizing t u with
  | nil =>
    obtain rfl : t = u := by simpa [joinInner] using h
    exact ⟨trivial, .refl t⟩
  | cons m s ih =>
    cases t with
    | nil =>
      obtain rfl : m :: s = u := by simpa [joinInner] using h
      exact ⟨.refl _, trivial⟩
    | cons n t =>
      simp only [joinInner, Option.bind_eq_bind, Option.bind_eq_some_iff, Option.pure_def,
        Option.some.injEq] at h
      obtain ⟨k, hk, v, hv, rfl⟩ := h
      obtain ⟨hm, hn⟩ := joinAxis_eq_some hk
      obtain ⟨hs, ht⟩ := ih hv
      exact ⟨⟨hm, hs⟩, ⟨hn, ht⟩⟩

theorem exists_joinInner {s t u : Shape} (hs : InnerStretches s u) (ht : InnerStretches t u) :
    ∃ v, joinInner s t = some v ∧ InnerStretches v u := by
  induction s generalizing t u with
  | nil => exact ⟨t, by simp [joinInner], ht⟩
  | cons m s ih =>
    cases t with
    | nil => exact ⟨m :: s, by simp [joinInner], hs⟩
    | cons n t =>
      cases u with
      | nil => exact hs.elim
      | cons p u =>
        obtain ⟨k, hk, hkp⟩ := exists_joinAxis hs.1 ht.1
        obtain ⟨v, hv, hvu⟩ := ih hs.2 ht.2
        exact ⟨k :: v, by simp [joinInner, hk, hv], hkp, hvu⟩

theorem StretchesTo.refl (s : Shape) : StretchesTo s s := by
  rw [stretchesTo_iff]
  exact .refl _

theorem StretchesTo.trans {s t u : Shape} (h : StretchesTo s t) (h' : StretchesTo t u) :
    StretchesTo s u := by
  rw [stretchesTo_iff] at h h' ⊢
  exact h.trans h'

theorem scalar_stretchesTo {t : Shape} (ht : t ≠ []) : StretchesTo scalar t := by
  rw [stretchesTo_iff]
  have hne : t.reverse ≠ [] := by simpa using ht
  obtain ⟨n, u, hu⟩ := List.exists_cons_of_ne_nil hne
  rw [hu]
  exact ⟨Or.inr rfl, trivial⟩

/-- Both shapes stretch to their joint shape. -/
theorem join?_eq_some {s t u : Shape} (h : join? s t = some u) :
    StretchesTo s u ∧ StretchesTo t u := by
  obtain ⟨v, hv, rfl⟩ := Option.map_eq_some_iff.mp h
  rw [stretchesTo_iff, stretchesTo_iff, List.reverse_reverse]
  exact joinInner_eq_some hv

/-- The joint shape exists below every shape that both stretch to. -/
theorem exists_join? {s t u : Shape} (hs : StretchesTo s u) (ht : StretchesTo t u) :
    ∃ v, join? s t = some v ∧ StretchesTo v u := by
  rw [stretchesTo_iff] at hs ht
  obtain ⟨v, hv, hvu⟩ := exists_joinInner hs ht
  refine ⟨v.reverse, by rw [join?, hv, Option.map_some], ?_⟩
  rw [stretchesTo_iff, List.reverse_reverse]
  exact hvu

theorem joinAxis_comm (m n : Nat) : joinAxis m n = joinAxis n m := by
  unfold joinAxis
  split_ifs with hleft hone hright hright'
  all_goals first | rfl | omega | (congr 1; omega)

theorem joinInner_comm (s t : Shape) : joinInner s t = joinInner t s := by
  induction s generalizing t with
  | nil => cases t <;> rfl
  | cons m s ih =>
    cases t with
    | nil => rfl
    | cons n t => rw [joinInner, joinInner, joinAxis_comm, ih]

theorem join?_comm (s t : Shape) : join? s t = join? t s := by
  rw [join?, join?, joinInner_comm]

theorem volume_ne_zero_of_forall₂ {s t : Shape} (h : List.Forall₂ AxisStretches s t)
    (ht : volume t ≠ 0) : volume s ≠ 0 := by
  induction h with
  | nil => exact ht
  | @cons m n s t hmn _ ih =>
    obtain ⟨hn, ht⟩ := Nat.mul_ne_zero_iff.mp ht
    refine Nat.mul_ne_zero ?_ (ih ht)
    rcases hmn with rfl | rfl
    · exact hn
    · exact Nat.one_ne_zero

/-- A shape that stretches to one with entries has entries. -/
theorem volume_ne_zero_of_stretchesTo {s t : Shape} (h : StretchesTo s t) (ht : volume t ≠ 0) :
    volume s ≠ 0 := by
  rw [← volume_padTo s t]
  exact volume_ne_zero_of_forall₂ (aligned_iff_forall₂.mp h) ht

theorem extent_padTo (s t : Shape) : extent (padTo s t) = extent s := by
  have hones (k : Nat) : extent (List.replicate k 1 ++ s) = extent s := by
    induction k with
    | zero => rfl
    | succ k ih =>
      rw [List.replicate_succ, List.cons_append, extent, ih, Nat.max_self, Nat.one_mul]
  exact hones _

theorem extent_le_of_forall₂ {s t : Shape} (h : List.Forall₂ AxisStretches s t) :
    extent s ≤ extent t := by
  induction h with
  | nil => exact Nat.le_refl _
  | @cons m n s t hmn _ ih =>
    have hmax : max m 1 ≤ max n 1 := by
      rcases hmn with rfl | rfl <;> omega
    exact Nat.mul_le_mul hmax ih

/-- What can be addressed after stretching can be addressed before. -/
theorem isAddressable_of_stretchesTo {s t : Shape} (h : StretchesTo s t)
    (ht : isAddressable t = true) : isAddressable s = true := by
  have hle := extent_le_of_forall₂ (aligned_iff_forall₂.mp h)
  rw [extent_padTo] at hle
  simp only [isAddressable, decide_eq_true_eq] at ht ⊢
  omega

theorem fits_iff {s t : Shape} :
    fits s t = true ↔ StretchesTo s t ∧ isAddressable t = true := by
  rw [fits, Bool.and_eq_true]
  rfl

/-- Nothing is stretched to a shape that cannot be addressed. -/
theorem not_fits {s u : Shape} (hlarge : u.isAddressable = false) : ¬ s.fits u = true := by
  intro hfits
  rw [(fits_iff.mp hfits).2] at hlarge
  nomatch hlarge

end Shape

end FormulaCalculus
