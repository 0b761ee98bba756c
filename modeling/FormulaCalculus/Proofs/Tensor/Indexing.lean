import FormulaCalculus.Proofs.Tensor.Stretching

/-!
Multi-indices of a shape, and the entry of a tensor at one. The entries lie in row-major order, so a
tensor is determined by its shape and its entries. A stretched tensor has at a multi-index the entry
that it had before, with the axes put in front left out and zero on the axes of length one.
-/

namespace FormulaCalculus

open Shape (volume AxisStretches)

variable {α β : Type}

namespace Shape

/-- Whether a list of numbers is a multi-index of a shape, one number below each length. -/
def IsIndex (s : Shape) (k : List Nat) : Prop := List.Forall₂ (fun n i => i < n) s k

instance (s : Shape) (k : List Nat) : Decidable (IsIndex s k) :=
  inferInstanceAs (Decidable (List.Forall₂ _ s k))

/-- The place of a multi-index in row-major order, where the last axis runs fastest. -/
def place : Shape → List Nat → Nat
  | _ :: s, i :: k => i * volume s + place s k
  | _, _ => 0

/-- The index on an axis, which is zero if the axis has length one. -/
def pinAxis (n i : Nat) : Nat := if n = 1 then 0 else i

/-- A multi-index with the axes of length one at zero. -/
def pin (s : Shape) (k : List Nat) : List Nat := List.zipWith pinAxis s k

/-- Where a shape has the entry for a multi-index of a shape that it stretches to: the numbers of
the axes in front are left out, and axes of length one are at zero. -/
def restrict (s : Shape) (k : List Nat) : List Nat := pin s (k.drop (k.length - s.length))

variable {s t : Shape} {k : List Nat}

theorem place_lt_volume (h : IsIndex s k) : place s k < volume s := by
  induction h with
  | nil => exact Nat.zero_lt_one
  | @cons n i s k hi _ ih =>
    calc i * volume s + place s k
        < i * volume s + volume s := Nat.add_lt_add_left ih _
      _ = (i + 1) * volume s := (Nat.succ_mul _ _).symm
      _ ≤ n * volume s := Nat.mul_le_mul_right _ hi

/-- Every place is that of a multi-index. -/
theorem exists_place {p : Nat} (h : p < volume s) : ∃ k, IsIndex s k ∧ place s k = p := by
  induction s generalizing p with
  | nil => exact ⟨[], .nil, (Nat.lt_one_iff.mp h).symm⟩
  | cons n s ih =>
    have hpos : 0 < volume s := Nat.pos_of_lt_mul_left h
    obtain ⟨k, hk, hplace⟩ := ih (Nat.mod_lt p hpos)
    refine ⟨p / volume s :: k, .cons ((Nat.div_lt_iff_lt_mul hpos).mpr h) hk, ?_⟩
    rw [place, hplace]
    exact Nat.div_add_mod' p (volume s)

theorem pinAxis_of_lt {n i : Nat} (h : i < n) : pinAxis n i = i := by
  unfold pinAxis
  split_ifs with hn
  · omega
  · rfl

theorem pinAxis_lt {m n i : Nat} (h : AxisStretches m n) (hi : i < n) : pinAxis m i < m := by
  rcases h with rfl | rfl
  · rwa [pinAxis_of_lt hi]
  · exact Nat.zero_lt_one

theorem isIndex_pin (h : List.Forall₂ AxisStretches s t) (hk : IsIndex t k) :
    IsIndex s (pin s k) := by
  induction h generalizing k with
  | nil => exact .nil
  | cons hmn _ ih =>
    cases hk with
    | cons hi hk => exact .cons (pinAxis_lt hmn hi) (ih hk)

/-- Axes of length one in front of a shape do not move its entries. -/
theorem place_pin_ones (j : Nat) (s : Shape) (k : List Nat) :
    place (List.replicate j 1 ++ s) (pin (List.replicate j 1 ++ s) k) =
      place s (pin s (k.drop j)) := by
  induction j generalizing k with
  | zero => rfl
  | succ j ih =>
    cases k with
    | nil => cases s <;> rfl
    | cons i k =>
      have hzero : pin (List.replicate (j + 1) 1 ++ s) (i :: k) =
          0 :: pin (List.replicate j 1 ++ s) k := rfl
      rw [hzero, List.replicate_succ, List.cons_append, place, Nat.zero_mul, Nat.zero_add, ih,
        List.drop_succ_cons]

theorem place_pin_padTo (s : Shape) (h : IsIndex t k) :
    place (padTo s t) (pin (padTo s t) k) = place s (restrict s k) := by
  rw [padTo, place_pin_ones, restrict, List.Forall₂.length_eq h]

theorem isIndex_restrict (h : StretchesTo s t) (hk : IsIndex t k) : IsIndex s (restrict s k) := by
  have hforall := List.forall₂_drop (t.length - s.length) (aligned_iff_forall₂.mp h)
  have hdrop : (padTo s t).drop (t.length - s.length) = s := by
    rw [padTo, List.drop_left' List.length_replicate]
  rw [hdrop] at hforall
  rw [restrict, ← List.Forall₂.length_eq hk]
  exact isIndex_pin hforall (List.forall₂_drop _ hk)

end Shape

/-! ### Entries in row-major order -/

section Rows

open Shape (IsIndex place pin)

variable {w i j : Nat} {s t : Shape} {d : List α}

/-- An entry of rows of one width put behind each other. -/
theorem getElem?_flatMap {f : α → List β} {l : List α} (h : ∀ a ∈ l, (f a).length = w)
    (hj : j < w) : (l.flatMap f)[i * w + j]? = l[i]?.bind fun a => (f a)[j]? := by
  induction l generalizing i with
  | nil => rfl
  | cons a l ih =>
    obtain ⟨ha, hl⟩ := List.forall_mem_cons.mp h
    rw [List.flatMap_cons]
    cases i with
    | zero =>
      rw [Nat.zero_mul, Nat.zero_add, List.getElem?_append_left (ha ▸ hj)]
      rfl
    | succ i =>
      have hnext : (i + 1) * w + j = w + (i * w + j) := by
        rw [Nat.succ_mul]
        omega
      rw [hnext, ← ha, List.getElem?_append_right (Nat.le_add_right _ _), Nat.add_sub_cancel_left,
        ha, ih hl]
      rfl

theorem getElem?_rowsOf {m : Nat} (hd : d.length = m * w) (hj : j < w) :
    ((rowsOf w m d)[i]?.bind fun r => r[j]?) = d[i * w + j]? := by
  rw [← getElem?_flatMap (fun r hr => length_of_mem_rowsOf hd hr) hj, List.flatMap_id',
    flatten_rowsOf hd]

/-- On an axis that is kept, each row is stretched for itself. -/
theorem getElem?_stretch_self {n p : Nat} (hst : List.Forall₂ AxisStretches s t)
    (hd : d.length = n * volume s) (hj : j < volume t) (hp : p < volume s)
    (hrow : ∀ r : List α, r.length = volume s → (stretch s t r)[j]? = r[p]?) :
    (stretch (n :: s) (n :: t) d)[i * volume t + j]? = d[i * volume s + p]? := by
  have hwidth : ∀ r ∈ rowsOf (volume s) n d, (stretch s t r).length = volume t := by
    intro r hr
    exact length_stretch (Shape.aligned_iff_forall₂.mpr hst) (length_of_mem_rowsOf hd hr)
  rw [stretch_self, getElem?_flatMap hwidth hj, ← getElem?_rowsOf hd hp]
  apply Option.bind_congr
  intro r hr
  exact hrow r (length_of_mem_rowsOf hd (List.mem_of_getElem? hr))

/-- On an axis of length one, all rows are the stretched one. -/
theorem getElem?_stretch_one {n : Nat} (hst : List.Forall₂ AxisStretches s t)
    (hd : d.length = volume s) (hi : i < n) (hj : j < volume t) :
    (stretch (1 :: s) (n :: t) d)[i * volume t + j]? = (stretch s t d)[j]? := by
  have hwidth : ∀ r ∈ List.replicate n (stretch s t d), r.length = volume t := by
    intro r hr
    rw [List.eq_of_mem_replicate hr, length_stretch (Shape.aligned_iff_forall₂.mpr hst) hd]
  have hrow : (List.replicate n (stretch s t d))[i]? = some (stretch s t d) :=
    List.getElem?_replicate_of_lt hi
  rw [stretch_one n t hd, ← List.flatMap_id', getElem?_flatMap hwidth hj, hrow, Option.bind_some]

/-- Stretched entries at a multi-index are the entries before at the pinned one. -/
theorem getElem?_stretch {k : List Nat} (h : List.Forall₂ AxisStretches s t) (hk : IsIndex t k)
    (hd : d.length = volume s) : (stretch s t d)[place t k]? = d[place s (pin s k)]? := by
  induction h generalizing k d with
  | nil =>
    cases hk
    rfl
  | @cons m n s t hmn hst ih =>
    cases hk with
    | @cons _ i _ k hi hk =>
      have hplace := Shape.place_lt_volume hk
      have hpinned := Shape.place_lt_volume (Shape.isIndex_pin hst hk)
      have hpin : place (m :: s) (pin (m :: s) (i :: k)) =
          Shape.pinAxis m i * volume s + place s (pin s k) := rfl
      rw [hpin, place]
      -- The axis is kept, also if its length is one, or it has length one and is repeated.
      rcases hmn with rfl | rfl
      · rw [Shape.pinAxis_of_lt hi]
        exact getElem?_stretch_self hst hd hplace hpinned fun r hr => ih hk hr
      · have hd' : d.length = volume s := by simpa [volume] using hd
        have hzero : Shape.pinAxis 1 i = 0 := rfl
        rw [getElem?_stretch_one hst hd' hi hplace, ih hk hd', hzero, Nat.zero_mul, Nat.zero_add]

end Rows

/-! ### Entries of tensors -/

namespace Tensor

open Shape (IsIndex place restrict)

variable {a b : Tensor α} {s : Shape} {k : List Nat}

/-- The entry of a tensor at a multi-index of its shape. -/
def get? (a : Tensor α) (k : List Nat) : Option α :=
  if IsIndex a.shape k then a.data[place a.shape k]? else none

theorem get?_eq (h : IsIndex a.shape k) : a.get? k = a.data[place a.shape k]? := if_pos h

theorem exists_get? (a : Tensor α) (h : IsIndex a.shape k) : ∃ x, a.get? k = some x := by
  have hlt : place a.shape k < a.data.length := a.length_data.symm ▸ Shape.place_lt_volume h
  exact ⟨a.data[place a.shape k], by rw [get?_eq h, List.getElem?_eq_getElem hlt]⟩

theorem get?_map (f : α → β) (a : Tensor α) (k : List Nat) :
    (a.map f).get? k = (a.get? k).map f := by
  change (if IsIndex a.shape k then (a.data.map f)[place a.shape k]? else none) = _
  unfold get?
  split_ifs with h
  · exact List.getElem?_map
  · rfl

theorem get?_replicate (h : IsIndex s k) (x : α) : (replicate s x).get? k = some x := by
  rw [get?_eq (a := replicate s x) h]
  exact List.getElem?_replicate_of_lt (Shape.place_lt_volume h)

/-- Tensors of one shape with the same entries are the same. -/
theorem eq_of_get? (hshape : a.shape = b.shape)
    (h : ∀ k, IsIndex a.shape k → a.get? k = b.get? k) : a = b := by
  obtain ⟨s, d, hd⟩ := a
  obtain ⟨t, e, he⟩ := b
  obtain rfl : s = t := hshape
  have hdata : d = e := by
    apply List.ext_getElem?
    intro p
    by_cases hp : p < volume s
    · obtain ⟨k, hk, rfl⟩ := Shape.exists_place hp
      have hentry := h k hk
      rwa [get?_eq (a := ⟨s, d, hd⟩) hk, get?_eq (a := ⟨s, e, he⟩) hk] at hentry
    · rw [List.getElem?_eq_none (by omega), List.getElem?_eq_none (by omega)]
  subst hdata
  rfl

/-- The entries of a tensor in a shape that it stretches to. -/
theorem getElem?_entriesIn (h : a.shape.StretchesTo s) (hk : IsIndex s k) :
    (a.entriesIn s)[place s k]? = a.get? (restrict a.shape k) := by
  have hvolume : volume s ≠ 0 := Nat.ne_zero_of_lt (Shape.place_lt_volume hk)
  rw [entriesIn_eq a hvolume, get?_eq (Shape.isIndex_restrict h hk),
    ← Shape.place_pin_padTo a.shape hk]
  exact getElem?_stretch (Shape.aligned_iff_forall₂.mp h) hk (a.length_data_padTo s)

theorem StretchesTo.get?_eq (h : a.StretchesTo b) (hk : IsIndex b.shape k) :
    b.get? k = a.get? (restrict a.shape k) := by
  rw [Tensor.get?_eq hk, h.data, getElem?_entriesIn h.shape hk]

end Tensor

end FormulaCalculus
