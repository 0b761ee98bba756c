import FormulaCalculus.Algebra.Error

/-!
Tensors of any shape, stored in row-major order, and the operations that broadcast them. A tensor
keeps as many entries as its shape has places.
-/

namespace FormulaCalculus

open Shape (volume)

/-- Splits a list into `m` consecutive rows of width `w`. -/
def rowsOf {α : Type} (w : Nat) : Nat → List α → List (List α)
  | 0, _ => []
  | m + 1, d => d.take w :: rowsOf w m (d.drop w)

/-- Stretches row-major entries of shape `s` to shape `t`, where both have as many axes and each
axis of `s` is as long as that of `t` or one. -/
def stretch {α : Type} : Shape → Shape → List α → List α
  | m :: s, n :: t, d =>
    if m = n then (rowsOf (volume s) m d).flatMap (stretch s t)
    else (List.replicate n (stretch s t d)).flatten
  | _, _, d => d

theorem length_rowsOf {α : Type} (w m : Nat) (d : List α) : (rowsOf w m d).length = m := by
  induction m generalizing d with
  | zero => rfl
  | succ m ih => simp [rowsOf, ih]

theorem length_of_mem_rowsOf {α : Type} {w m : Nat} {d r : List α} (h : d.length = m * w)
    (hr : r ∈ rowsOf w m d) : r.length = w := by
  induction m generalizing d with
  | zero => simp [rowsOf] at hr
  | succ m ih =>
    have hd : d.length = w + m * w := by rw [h, Nat.succ_mul, Nat.add_comm]
    simp only [rowsOf, List.mem_cons] at hr
    rcases hr with rfl | hr
    · rw [List.length_take, hd]
      omega
    · exact ih (by rw [List.length_drop, hd]; omega) hr

theorem length_flatMap_of_forall {α β : Type} {k : Nat} (f : α → List β) (l : List α)
    (h : ∀ a ∈ l, (f a).length = k) : (l.flatMap f).length = l.length * k := by
  induction l with
  | nil => simp
  | cons a l ih =>
    simp only [List.flatMap_cons, List.length_append, List.length_cons]
    rw [h a (by simp), ih fun b hb => h b (by simp [hb]), Nat.succ_mul, Nat.add_comm]

theorem length_stretch {α : Type} {s t : Shape} (h : Shape.aligned s t = true) {d : List α}
    (hd : d.length = volume s) : (stretch s t d).length = volume t := by
  fun_induction Shape.aligned s t generalizing d with
  | case1 => exact hd
  | case2 m s n t ih =>
    simp only [Bool.and_eq_true, Bool.or_eq_true, beq_iff_eq] at h
    obtain ⟨hmn, hst⟩ := h
    by_cases hm : m = n
    · subst hm
      rw [stretch, if_pos rfl,
        length_flatMap_of_forall _ _ fun r hr => ih hst (length_of_mem_rowsOf hd hr), length_rowsOf]
      rfl
    · have h1 : m = 1 := hmn.resolve_left hm
      have hs : d.length = volume s := by simpa [volume, h1] using hd
      rw [stretch, if_neg hm]
      simp [ih hst hs, volume]
  | case3 => simp at h

theorem volume_padTo (s t : Shape) : volume (Shape.padTo s t) = volume s := by
  have hones (k : Nat) : volume (List.replicate k 1 ++ s) = volume s := by
    induction k with
    | zero => rfl
    | succ k ih => simpa [List.replicate_succ, volume] using ih
  exact hones _

/-- Row-major entries together with their shape. -/
structure Tensor (α : Type) where
  shape : Shape
  data : List α
  length_data : data.length = volume shape

namespace Tensor

variable {α β γ : Type}

instance [BEq α] : BEq (Tensor α) where
  beq a b := a.shape == b.shape && a.data == b.data

/-- The tensor of a shape with one value in every place. -/
def replicate (s : Shape) (x : α) : Tensor α :=
  ⟨s, List.replicate (volume s) x, List.length_replicate⟩

/-- The tensor of shape `[1]` that holds one value. -/
def singleton (x : α) : Tensor α := replicate Shape.scalar x

/-- The tensor with one axis that holds a list. -/
def ofList (l : List α) : Tensor α := ⟨[l.length], l, by simp [volume]⟩

/-- The tensor of a shape with the given entries, if their number is right. -/
def ofData? (s : Shape) (l : List α) : Option (Tensor α) :=
  if h : l.length = volume s then some ⟨s, l, h⟩ else none

def map (f : α → β) (a : Tensor α) : Tensor β :=
  ⟨a.shape, a.data.map f, by rw [List.length_map, a.length_data]⟩

/-- The row-major entries of the tensor stretched to a shape it fits. The axes of a shape without
entries are not walked, however long they are. -/
def entriesIn (a : Tensor α) (s : Shape) : List α :=
  if volume s = 0 then [] else stretch (a.shape.padTo s) s a.data

theorem length_entriesIn {a : Tensor α} {s : Shape} (h : a.shape.fits s = true) :
    (a.entriesIn s).length = volume s := by
  have haligned : Shape.aligned (a.shape.padTo s) s = true := by
    simp only [Shape.fits, Bool.and_eq_true] at h
    exact h.1
  by_cases hs : volume s = 0
  · rw [entriesIn, if_pos hs, hs, List.length_nil]
  · rw [entriesIn, if_neg hs]
    exact length_stretch haligned (a.length_data.trans (volume_padTo a.shape s).symm)

variable {ε : Type}

/-- Fills a tensor of a shape with one value, if a tensor can have the shape. -/
def filled (s : Shape) (x : α) : Except (AlgebraError ε) (Tensor α) :=
  if s.isAddressable then .ok (replicate s x) else .error (.unaddressable s)

theorem filled_eq_ok_iff {s : Shape} {x : α} {a : Tensor α} :
    filled s x = (.ok a : Except (AlgebraError ε) (Tensor α)) ↔
      s.isAddressable = true ∧ replicate s x = a := by
  by_cases h : s.isAddressable = true <;> simp [filled, h]

theorem filled_eq_error_iff {s : Shape} {x : α} {e : AlgebraError ε} :
    filled s x = .error e ↔ s.isAddressable = false ∧ e = .unaddressable s := by
  by_cases h : s.isAddressable = true <;> simp [filled, h, eq_comm]

/-- A number without a shape of its own always fills a tensor. -/
theorem filled_scalar (x : α) :
    filled Shape.scalar x = (.ok (singleton x) : Except (AlgebraError ε) (Tensor α)) :=
  filled_eq_ok_iff.mpr ⟨by decide, rfl⟩

/-- The shape two operands are stretched to. -/
def joinShapes (s t : Shape) : Except (AlgebraError ε) Shape :=
  match s.join? t with
  | some u => .ok u
  | none => .error (.broadcast s t)

/-- The tensor stretched to a shape. -/
def broadcastTo (a : Tensor α) (s : Shape) : Except (AlgebraError ε) (Tensor α) :=
  if h : a.shape.fits s = true then .ok ⟨s, a.entriesIn s, length_entriesIn h⟩
  else .error (.broadcast a.shape s)

/-- Combines two tensors entry by entry after stretching both to their joint shape. -/
def zipWith (f : α → β → γ) (a : Tensor α) (b : Tensor β) :
    Except (AlgebraError ε) (Tensor γ) := do
  let s ← joinShapes a.shape b.shape
  if h : a.shape.fits s = true ∧ b.shape.fits s = true then
    return ⟨s, List.zipWith f (a.entriesIn s) (b.entriesIn s), by
      rw [List.length_zipWith, length_entriesIn h.1, length_entriesIn h.2, Nat.min_self]⟩
  else throw (.broadcast a.shape b.shape)

/-- Maps the entries and stretches the result to the joint shape with `s`. -/
def mapIn (f : α → β) (a : Tensor α) (s : Shape) : Except (AlgebraError ε) (Tensor β) := do
  let t ← joinShapes a.shape s
  (a.map f).broadcastTo t

end Tensor

end FormulaCalculus
