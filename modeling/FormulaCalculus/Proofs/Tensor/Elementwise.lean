import FormulaCalculus.Proofs.Tensor.Indexing
import FormulaCalculus.Scalar.Double

/-!
Operations entry by entry. Two tensors are combined in their joint shape, where each entry is the
function of the entries that stretch to its multi-index. Mapping a tensor with a number and
stretching the result is combining it with the tensor filled with that number, if there is one.
-/

namespace FormulaCalculus

open Shape (volume IsIndex restrict)

namespace Tensor

variable {α β γ ε : Type} {f : α → β → γ} {a : Tensor α} {b : Tensor β} {q r : Tensor γ}
  {s u : Shape} {c : β}

/-- Whether a tensor has at every multi-index the function of the entries of two tensors, each taken
at what the multi-index is in its own shape. -/
def IsEntrywise (f : α → β → γ) (a : Tensor α) (b : Tensor β) (r : Tensor γ) : Prop :=
  ∀ k, IsIndex r.shape k → ∃ x y, a.get? (restrict a.shape k) = some x ∧
    b.get? (restrict b.shape k) = some y ∧ r.get? k = some (f x y)

/-- A shape and the entries leave no choice. -/
theorem IsEntrywise.unique (hq : IsEntrywise f a b q) (hr : IsEntrywise f a b r)
    (hshape : q.shape = r.shape) : q = r := by
  apply eq_of_get? hshape
  intro k hk
  obtain ⟨x, y, hx, hy, hentry⟩ := hq k hk
  obtain ⟨x', y', hx', hy', hentry'⟩ := hr k (hshape ▸ hk)
  obtain rfl := Option.some.inj (hx.symm.trans hx')
  obtain rfl := Option.some.inj (hy.symm.trans hy')
  rw [hentry, hentry']

theorem isEntrywise_of_zipWith (ha : a.shape.StretchesTo r.shape) (hb : b.shape.StretchesTo r.shape)
    (hdata : r.data = List.zipWith f (a.entriesIn r.shape) (b.entriesIn r.shape)) :
    IsEntrywise f a b r := by
  intro k hk
  obtain ⟨x, hx⟩ := a.exists_get? (Shape.isIndex_restrict ha hk)
  obtain ⟨y, hy⟩ := b.exists_get? (Shape.isIndex_restrict hb hk)
  refine ⟨x, y, hx, hy, ?_⟩
  rw [get?_eq hk, hdata, List.getElem?_zipWith, getElem?_entriesIn ha hk, getElem?_entriesIn hb hk,
    hx, hy]

/-- A mapped and stretched tensor has the entries of the combination with a filled one. -/
theorem isEntrywise_of_map (h : (a.map fun x => f x c).StretchesTo r)
    (hs : s.StretchesTo r.shape) : IsEntrywise f a (replicate s c) r := by
  intro k hk
  have ha : a.shape.StretchesTo r.shape := h.shape
  obtain ⟨x, hx⟩ := a.exists_get? (Shape.isIndex_restrict ha hk)
  refine ⟨x, c, hx, get?_replicate (Shape.isIndex_restrict hs hk) c, ?_⟩
  rw [h.get?_eq hk, get?_map]
  exact congrArg (Option.map fun x => f x c) hx

/-- What two tensors are combined to. -/
theorem zipWith_eq_ok_iff :
    a.zipWith f b = (.ok r : Except (AlgebraError ε) (Tensor γ)) ↔
      joinShapes a.shape b.shape = (.ok r.shape : Except (AlgebraError ε) Shape) ∧
        r.shape.isAddressable = true ∧ IsEntrywise f a b r := by
  rw [joinShapes_eq_ok]
  constructor
  · intro h
    obtain ⟨hjoin, haddressable, hdata⟩ := of_zipWith_eq_ok h
    obtain ⟨ha, hb⟩ := Shape.join?_eq_some hjoin
    exact ⟨hjoin, haddressable, isEntrywise_of_zipWith ha hb hdata⟩
  · rintro ⟨hjoin, haddressable, hentries⟩
    obtain ⟨q, hq, hshape, hdata⟩ := exists_zipWith (ε := ε) f hjoin haddressable
    obtain ⟨ha, hb⟩ := Shape.join?_eq_some hjoin
    rw [← hshape] at ha hb hdata
    rw [hq, (isEntrywise_of_zipWith ha hb hdata).unique hentries hshape]

theorem zipWith_succeeds_iff :
    (∃ r, a.zipWith f b = (.ok r : Except (AlgebraError ε) (Tensor γ))) ↔
      ∃ u, joinShapes a.shape b.shape = (.ok u : Except (AlgebraError ε) Shape) ∧
        u.isAddressable = true := by
  constructor
  · rintro ⟨r, hr⟩
    obtain ⟨hjoin, haddressable, -⟩ := zipWith_eq_ok_iff.mp hr
    exact ⟨r.shape, hjoin, haddressable⟩
  · rintro ⟨u, hjoin, haddressable⟩
    obtain ⟨r, hr, -⟩ := exists_zipWith (ε := ε) f (joinShapes_eq_ok.mp hjoin) haddressable
    exact ⟨r, hr⟩

/-- Every failure names the two shapes. -/
theorem of_zipWith_eq_error {e : AlgebraError ε} (h : a.zipWith f b = .error e) :
    e = .broadcast a.shape b.shape := by
  have hlarge (s : Shape) (hs : a.shape.join? b.shape = some s) : s.isAddressable = false := by
    apply eq_false_of_ne_true
    intro haddressable
    obtain ⟨r, hr, -⟩ := exists_zipWith (ε := ε) f hs haddressable
    nomatch hr.symm.trans h
  exact Except.error.inj (h.symm.trans (zipWith_eq_error hlarge))

/-- A joint shape that a tensor can have, or none, is met alike by both. -/
theorem mapIn_eq_zipWith (hb : filled s c = (.ok b : Except (AlgebraError ε) (Tensor β)))
    (h : ∀ u, joinShapes a.shape s = (.ok u : Except (AlgebraError ε) Shape) →
      u.isAddressable = true) :
    a.mapIn (fun x => f x c) s = (a.zipWith f b : Except (AlgebraError ε) (Tensor γ)) := by
  obtain ⟨-, rfl⟩ := filled_eq_ok_iff.mp hb
  cases hjoin : (joinShapes a.shape s : Except (AlgebraError ε) Shape) with
  | error e =>
    have hfilled : joinShapes a.shape (replicate s c).shape = .error e := hjoin
    rw [mapIn, zipWith, hjoin, hfilled]
    rfl
  | ok u =>
    have haddressable := h u hjoin
    have hsome := joinShapes_eq_ok.mp hjoin
    obtain ⟨r, hr, rfl, hstretch⟩ := exists_mapIn (ε := ε) (fun x => f x c) hsome haddressable
    have hentries := isEntrywise_of_map hstretch (Shape.join?_eq_some hsome).2
    rw [hr, zipWith_eq_ok_iff.mpr ⟨hjoin, haddressable, hentries⟩]

/-- A joint shape that is more than a tensor can have is refused by both, but by the mapping with
that shape for the second one. -/
theorem mapIn_zipWith_eq_error (hshape : b.shape = s)
    (hjoin : joinShapes a.shape s = (.ok u : Except (AlgebraError ε) Shape))
    (hlarge : u.isAddressable = false) (g : α → γ) :
    a.mapIn g s = (.error (.broadcast a.shape u) : Except (AlgebraError ε) (Tensor γ)) ∧
      a.zipWith f b =
        (.error (.broadcast a.shape s) : Except (AlgebraError ε) (Tensor γ)) := by
  subst hshape
  have hsome := joinShapes_eq_ok.mp hjoin
  refine ⟨mapIn_eq_error _ hsome hlarge, zipWith_eq_error fun t ht => ?_⟩
  obtain rfl := Option.some.inj (hsome.symm.trans ht)
  exact hlarge

/-- Where no tensor can be filled, none is mapped into the shape either. -/
theorem mapIn_of_not_addressable (hlarge : s.isAddressable = false) (g : α → γ) :
    ∃ t, a.mapIn g s = (.error (.broadcast a.shape t) : Except (AlgebraError ε) (Tensor γ)) := by
  cases hjoin : a.shape.join? s with
  | none =>
    refine ⟨s, ?_⟩
    rw [mapIn, joinShapes, hjoin]
    rfl
  | some u =>
    have hstretch := (Shape.join?_eq_some hjoin).2
    have hu : u.isAddressable = false := by
      apply eq_false_of_ne_true
      intro haddressable
      have hs := Shape.isAddressable_of_stretchesTo hstretch haddressable
      exact Bool.eq_false_iff.mp hlarge hs
    exact ⟨u, mapIn_eq_error g hjoin hu⟩

/-- Two tensors are combined in their joint shape, if a tensor can have it, to the tensor with the
function of their entries at every multi-index. Mapping a tensor with a number into a shape is
combining it with the filled tensor of that shape, but for the words in which a joint shape that no
tensor can have is refused; where there is no filled tensor, the mapping is refused as well. -/
theorem zipWith_entrywise (α β γ ε : Type) :
    (∀ (f : α → β → γ) (a : Tensor α) (b : Tensor β),
      ((∃ r, a.zipWith f b = (.ok r : Except (AlgebraError ε) (Tensor γ))) ↔
        ∃ u, joinShapes a.shape b.shape = (.ok u : Except (AlgebraError ε) Shape) ∧
          u.isAddressable = true) ∧
      (∀ r, a.zipWith f b = (.ok r : Except (AlgebraError ε) (Tensor γ)) ↔
        joinShapes a.shape b.shape = (.ok r.shape : Except (AlgebraError ε) Shape) ∧
          r.shape.isAddressable = true ∧ IsEntrywise f a b r) ∧
      ∀ e, a.zipWith f b = (.error e : Except (AlgebraError ε) (Tensor γ)) →
        e = .broadcast a.shape b.shape) ∧
    ∀ (f : α → β → γ) (a : Tensor α) (s : Shape) (c : β),
      (∀ b, filled s c = (.ok b : Except (AlgebraError ε) (Tensor β)) →
        ((∀ u, joinShapes a.shape s = (.ok u : Except (AlgebraError ε) Shape) →
            u.isAddressable = true) →
          a.mapIn (fun x => f x c) s = (a.zipWith f b : Except (AlgebraError ε) (Tensor γ))) ∧
        ∀ u, joinShapes a.shape s = (.ok u : Except (AlgebraError ε) Shape) →
          u.isAddressable = false →
            a.mapIn (fun x => f x c) s =
                (.error (.broadcast a.shape u) : Except (AlgebraError ε) (Tensor γ)) ∧
              a.zipWith f b =
                (.error (.broadcast a.shape s) : Except (AlgebraError ε) (Tensor γ))) ∧
      ∀ e, filled s c = (.error e : Except (AlgebraError ε) (Tensor β)) →
        e = .unaddressable s ∧ ∃ t, a.mapIn (fun x => f x c) s =
          (.error (.broadcast a.shape t) : Except (AlgebraError ε) (Tensor γ)) := by
  constructor
  · intro f a b
    exact ⟨zipWith_succeeds_iff, fun r => zipWith_eq_ok_iff, fun e => of_zipWith_eq_error⟩
  · intro f a s c
    constructor
    · intro b hb
      have hshape : b.shape = s := by
        obtain ⟨-, rfl⟩ := filled_eq_ok_iff.mp hb
        rfl
      exact ⟨mapIn_eq_zipWith hb, fun u hjoin hlarge =>
        mapIn_zipWith_eq_error hshape hjoin hlarge _⟩
    · intro e he
      obtain ⟨hlarge, rfl⟩ := filled_eq_error_iff.mp he
      exact ⟨rfl, mapIn_of_not_addressable hlarge _⟩

/-- A column of two entries, with a row of three and with a number for a row of three. -/
theorem zipWith_entrywise_column :
    let a : Tensor Double := ⟨[2, 1], [Scalar.one, Scalar.two], rfl⟩
    let b : Tensor Double := ⟨[3], [Scalar.half, Scalar.one, Scalar.four], rfl⟩
    let f (x y : Double) : Double := x + y
    (∃ r, a.zipWith f b = (.ok r : Except (AlgebraError Double) (Tensor Double)) ∧
      r.shape = [2, 3] ∧ r.get? [1, 2] = some (Scalar.two + Scalar.four)) ∧
    ∃ h, filled [3] Scalar.half = (.ok h : Except (AlgebraError Double) (Tensor Double)) ∧
      a.mapIn (fun x => f x Scalar.half) [3] =
        (a.zipWith f h : Except (AlgebraError Double) (Tensor Double)) := by
  intro a b f
  obtain ⟨hzip, hmap⟩ := zipWith_entrywise Double Double Double Double
  have hjoin : joinShapes a.shape b.shape =
      (.ok [2, 3] : Except (AlgebraError Double) Shape) := rfl
  have haddressable : Shape.isAddressable [2, 3] = true := by decide
  obtain ⟨hsucceeds, hentries, -⟩ := hzip f a b
  obtain ⟨r, hr⟩ := hsucceeds.mpr ⟨[2, 3], hjoin, haddressable⟩
  obtain ⟨hshape, -, hentry⟩ := (hentries r).mp hr
  obtain hshape := Except.ok.inj (hjoin.symm.trans hshape)
  refine ⟨⟨r, hr, hshape.symm, ?_⟩, _, rfl, ((hmap f a [3] Scalar.half).1 _ rfl).1 fun u hu => ?_⟩
  · have hindex : IsIndex r.shape [1, 2] := by
      rw [← hshape]
      decide
    obtain ⟨x, y, hx, hy, hsum⟩ := hentry [1, 2] hindex
    obtain rfl : Scalar.two = x := Option.some.inj hx
    obtain rfl : Scalar.four = y := Option.some.inj hy
    exact hsum
  · obtain rfl := Except.ok.inj (hjoin.symm.trans hu)
    exact haddressable

/-- Tensors of no and of four entries: their joint shape has no entries, but its other axes are too
long, so the sum is refused, and a mapping into it in other words. -/
theorem zipWith_not_addressable :
    let a : Tensor Double := .replicate [0, 4611686018427387904] Scalar.one
    let b : Tensor Double := .replicate [4, 1, 1] Scalar.one
    let u : Shape := [4, 0, 4611686018427387904]
    volume a.shape = 0 ∧ volume b.shape = 4 ∧ volume u = 0 ∧
      joinShapes a.shape b.shape = (.ok u : Except (AlgebraError Double) Shape) ∧
      a.zipWith (fun x y => x + y) b =
        (.error (.broadcast a.shape b.shape) : Except (AlgebraError Double) (Tensor Double)) ∧
      a.mapIn (fun x => x + Scalar.one) b.shape =
        (.error (.broadcast a.shape u) : Except (AlgebraError Double) (Tensor Double)) := by
  intro a b u
  have hjoin : joinShapes a.shape b.shape =
      (.ok u : Except (AlgebraError Double) Shape) := rfl
  have hlarge : u.isAddressable = false := by decide
  obtain ⟨hmap, hzip⟩ := mapIn_zipWith_eq_error (f := fun x y : Double => x + y) rfl hjoin hlarge
    fun x => x + Scalar.one
  exact ⟨by decide, by decide, by decide, hjoin, hzip, hmap⟩

end Tensor

end FormulaCalculus
