import FormulaCalculus.Proofs.Bind
import FormulaCalculus.Proofs.Tensor.Shape

/-!
Stretching the entries of a tensor. Stretching in two steps is stretching in one, and it commutes
with functions of the entries; so an operation may be carried out on tensors of the least shapes and
stretched afterwards.
-/

namespace FormulaCalculus

open Shape (volume AxisStretches StretchesTo)

variable {α β γ ε : Type}

theorem rowsOf_map (f : α → β) (w m : Nat) (d : List α) :
    rowsOf w m (d.map f) = (rowsOf w m d).map (List.map f) := by
  induction m generalizing d with
  | zero => rfl
  | succ m ih =>
    rw [rowsOf, rowsOf, List.map_cons, ← List.map_take, ← List.map_drop, ih]

/-- The rows of a list put together from rows. -/
theorem rowsOf_flatMap {w m : Nat} (f : α → List β) {l : List α} (hl : l.length = m)
    (h : ∀ a ∈ l, (f a).length = w) : rowsOf w m (l.flatMap f) = l.map f := by
  subst hl
  induction l with
  | nil => rfl
  | cons a l ih =>
    obtain ⟨ha, hl⟩ := List.forall_mem_cons.mp h
    rw [List.length_cons, rowsOf, List.flatMap_cons, ← ha, List.take_left, List.drop_left, ha,
      ih hl, List.map_cons]

theorem rowsOf_replicate {w : Nat} (m : Nat) {d : List α} (h : d.length = w) :
    rowsOf w m (List.replicate m d).flatten = List.replicate m d := by
  have hmem : ∀ r ∈ List.replicate m d, r.length = w := by
    intro r hr
    rw [List.eq_of_mem_replicate hr, h]
  have hrows := rowsOf_flatMap (fun r => r) List.length_replicate hmem
  rwa [List.flatMap_id', List.map_id'] at hrows

theorem rowsOf_one {w : Nat} {d : List α} (h : d.length = w) : rowsOf w 1 d = [d] := by
  rw [rowsOf, rowsOf, ← h, List.take_length]

theorem stretch_self (n : Nat) (s t : Shape) (d : List α) :
    stretch (n :: s) (n :: t) d = (rowsOf (volume s) n d).flatMap (stretch s t) := by
  rw [stretch, if_pos rfl]

/-- An axis of length one is repeated. -/
theorem stretch_one (n : Nat) {s : Shape} (t : Shape) {d : List α} (h : d.length = volume s) :
    stretch (1 :: s) (n :: t) d = (List.replicate n (stretch s t d)).flatten := by
  by_cases hn : 1 = n
  · subst hn
    rw [stretch_self, rowsOf_one h]
    simp
  · rw [stretch, if_neg hn]

theorem stretch_map (f : α → β) {s t : Shape} (h : List.Forall₂ AxisStretches s t) {d : List α}
    (hd : d.length = volume s) : stretch s t (d.map f) = (stretch s t d).map f := by
  induction h generalizing d with
  | nil => rfl
  | @cons m n s t hmn hst ih =>
    rcases hmn with rfl | rfl
    · rw [stretch_self, stretch_self, rowsOf_map, List.flatMap_map, List.map_flatMap]
      refine List.flatMap_congr fun r hr => ?_
      exact ih (length_of_mem_rowsOf hd hr)
    · have hd' : d.length = volume s := by simpa [volume] using hd
      rw [stretch_one n t (by simpa using hd'), stretch_one n t hd', ih hd', List.map_flatten,
        List.map_replicate]

/-- Stretching to a shape and from there to another one is stretching to the other one. -/
theorem stretch_trans {s t u : Shape} (h : List.Forall₂ AxisStretches s t)
    (h' : List.Forall₂ AxisStretches t u) {d : List α} (hd : d.length = volume s) :
    stretch t u (stretch s t d) = stretch s u d := by
  induction h generalizing u d with
  | nil =>
    cases h'
    rfl
  | @cons m n s t hmn hst ih =>
    cases h' with
    | @cons _ k _ u hnk htu =>
      have haligned := Shape.aligned_iff_forall₂.mpr hst
      rcases hmn with rfl | rfl
      · rcases hnk with rfl | rfl
        · -- All three axes are as long, so the rows are stretched one by one.
          have hrows : ∀ r ∈ rowsOf (volume s) m d, (stretch s t r).length = volume t := by
            intro r hr
            exact length_stretch haligned (length_of_mem_rowsOf hd hr)
          have hlength := length_rowsOf (volume s) m d
          rw [stretch_self, stretch_self, stretch_self, rowsOf_flatMap _ hlength hrows,
            List.flatMap_map]
          apply List.flatMap_congr
          intro r hr
          exact ih htu (length_of_mem_rowsOf hd hr)
        · have hd' : d.length = volume s := by simpa [volume] using hd
          have hrow : stretch (1 :: s) (1 :: t) d = stretch s t d := by
            rw [stretch_one 1 t hd', List.replicate_one, List.flatten_singleton]
          have hstretched := length_stretch haligned hd'
          rw [hrow, stretch_one k u hstretched, stretch_one k u hd', ih htu hd']
      · have hd' : d.length = volume s := by simpa [volume] using hd
        have hstretched := length_stretch haligned hd'
        rcases hnk with rfl | rfl
        · -- The axis is repeated first, and its rows are stretched then.
          rw [stretch_one n t hd', stretch_self, rowsOf_replicate n hstretched,
            stretch_one n u hd', List.flatMap_def, List.map_replicate, ih htu hd']
        · have hrow : stretch (1 :: s) (1 :: t) d = stretch s t d := by
            rw [stretch_one 1 t hd', List.replicate_one, List.flatten_singleton]
          rw [hrow, stretch_one k u hstretched, stretch_one k u hd', ih htu hd']

theorem mem_of_mem_rowsOf {w m : Nat} {d r : List α} (hr : r ∈ rowsOf w m d) {x : α} (hx : x ∈ r) :
    x ∈ d := by
  induction m generalizing d with
  | zero => simp [rowsOf] at hr
  | succ m ih =>
    rcases List.mem_cons.mp hr with rfl | hr
    · exact List.mem_of_mem_take hx
    · exact List.mem_of_mem_drop (ih hr)

/-- Stretching brings in no entries. -/
theorem mem_of_mem_stretch {s t : Shape} {d : List α} {x : α} (hx : x ∈ stretch s t d) : x ∈ d := by
  induction s generalizing t d with
  | nil => exact hx
  | cons m s ih =>
    cases t with
    | nil => exact hx
    | cons n t =>
      rw [stretch] at hx
      split_ifs at hx with hmn
      · obtain ⟨r, hr, hx⟩ := List.mem_flatMap.mp hx
        exact mem_of_mem_rowsOf hr (ih hx)
      · obtain ⟨r, hr, hx⟩ := List.mem_flatten.mp hx
        rw [List.eq_of_mem_replicate hr] at hx
        exact ih hx

theorem flatten_rowsOf {w m : Nat} {d : List α} (hd : d.length = m * w) :
    (rowsOf w m d).flatten = d := by
  induction m generalizing d with
  | zero =>
    rw [Nat.zero_mul] at hd
    rw [List.length_eq_zero_iff.mp hd]
    rfl
  | succ m ih =>
    have hdrop : (d.drop w).length = m * w := by
      rw [List.length_drop, hd, Nat.succ_mul, Nat.add_sub_cancel]
    rw [rowsOf, List.flatten_cons, ih hdrop, List.take_append_drop]

/-- Stretching to the same shape changes nothing. -/
theorem stretch_same {s : Shape} {d : List α} (hd : d.length = volume s) : stretch s s d = d := by
  induction s generalizing d with
  | nil => rfl
  | cons n s ih =>
    have hrows : (rowsOf (volume s) n d).flatMap (stretch s s) =
        (rowsOf (volume s) n d).flatMap fun r => r := by
      apply List.flatMap_congr
      intro r hr
      exact ih (length_of_mem_rowsOf hd hr)
    rw [stretch_self, hrows, List.flatMap_id', flatten_rowsOf hd]

theorem forall₂_ones_append (k : Nat) {s t : Shape} (h : List.Forall₂ AxisStretches s t) :
    List.Forall₂ AxisStretches (List.replicate k 1 ++ s) (List.replicate k 1 ++ t) := by
  induction k with
  | zero => exact h
  | succ k ih => exact .cons (Or.inl rfl) ih

theorem stretch_ones_append (k : Nat) {s t : Shape} {d : List α} (hd : d.length = volume s) :
    stretch (List.replicate k 1 ++ s) (List.replicate k 1 ++ t) d = stretch s t d := by
  induction k with
  | zero => rfl
  | succ k ih =>
    have hvolume : volume (List.replicate k 1 ++ s) = volume s := by
      have h := volume_padTo s (List.replicate (k + s.length) 1)
      rwa [Shape.padTo, List.length_replicate, Nat.add_sub_cancel] at h
    rw [List.replicate_succ, List.cons_append, List.cons_append,
      stretch_one 1 _ (hd.trans hvolume.symm), ih, List.replicate_one, List.flatten_singleton]

theorem Shape.StretchesTo.length_le {s t : Shape} (h : StretchesTo s t) :
    s.length ≤ t.length := by
  have hlength := (Shape.aligned_iff_forall₂.mp h).length_eq
  rw [Shape.padTo, List.length_append, List.length_replicate] at hlength
  omega

namespace Tensor

theorem entriesIn_of_empty (a : Tensor α) {s : Shape} (hs : volume s = 0) : a.entriesIn s = [] :=
  if_pos hs

theorem entriesIn_eq (a : Tensor α) {s : Shape} (hs : volume s ≠ 0) :
    a.entriesIn s = stretch (a.shape.padTo s) s a.data :=
  if_neg hs

theorem length_data_padTo (a : Tensor α) (s : Shape) :
    a.data.length = volume (a.shape.padTo s) :=
  a.length_data.trans (volume_padTo a.shape s).symm

theorem length_entriesIn_of_stretchesTo {a : Tensor α} {s : Shape} (h : a.shape.StretchesTo s) :
    (a.entriesIn s).length = volume s := by
  by_cases hs : volume s = 0
  · rw [entriesIn_of_empty a hs, hs, List.length_nil]
  · rw [entriesIn_eq a hs]
    exact length_stretch h (a.length_data_padTo s)

theorem entriesIn_self (a : Tensor α) : a.entriesIn a.shape = a.data := by
  by_cases hvolume : volume a.shape = 0
  · have hlength : a.data.length = 0 := a.length_data.trans hvolume
    rw [entriesIn_of_empty a hvolume, List.length_eq_zero_iff.mp hlength]
  · have hpad : a.shape.padTo a.shape = a.shape := by
      rw [Shape.padTo, Nat.sub_self, List.replicate_zero, List.nil_append]
    rw [entriesIn_eq a hvolume, hpad, stretch_same a.length_data]

/-- The entries in a shape, in two steps. -/
theorem entriesIn_trans {a b : Tensor α} {t : Shape} (hab : StretchesTo a.shape b.shape)
    (hbt : StretchesTo b.shape t) (hb : b.data = a.entriesIn b.shape) :
    b.entriesIn t = a.entriesIn t := by
  by_cases ht : volume t = 0
  · rw [entriesIn_of_empty b ht, entriesIn_of_empty a ht]
  · have hforall := Shape.aligned_iff_forall₂.mp hab
    have hle := hab.length_le
    have hle' := hbt.length_le
    -- Padded to the full length at once, the inner shape has the ones of both paddings.
    have hpad : a.shape.padTo t =
        List.replicate (t.length - b.shape.length) 1 ++ a.shape.padTo b.shape := by
      rw [Shape.padTo, Shape.padTo, ← List.append_assoc, ← List.replicate_add]
      congr 2
      omega
    have hones := forall₂_ones_append (t.length - b.shape.length) hforall
    have hvolume := Shape.volume_ne_zero_of_stretchesTo hbt ht
    rw [b.entriesIn_eq ht, a.entriesIn_eq ht, hb, a.entriesIn_eq hvolume, hpad,
      ← stretch_ones_append (t.length - b.shape.length) (a.length_data_padTo b.shape)]
    apply stretch_trans hones (Shape.aligned_iff_forall₂.mp hbt)
    rw [← hpad]
    exact a.length_data_padTo t

theorem entriesIn_map (f : α → β) {a : Tensor α} {s : Shape} (h : StretchesTo a.shape s) :
    (a.map f).entriesIn s = (a.entriesIn s).map f := by
  by_cases hs : volume s = 0
  · rw [entriesIn_of_empty _ hs, entriesIn_of_empty a hs]
    rfl
  · rw [entriesIn_eq _ hs, entriesIn_eq a hs]
    exact stretch_map f (Shape.aligned_iff_forall₂.mp h) (a.length_data_padTo s)

theorem mem_of_mem_entriesIn {a : Tensor α} {s : Shape} {x : α} (hx : x ∈ a.entriesIn s) :
    x ∈ a.data := by
  by_cases hs : volume s = 0
  · rw [entriesIn_of_empty a hs] at hx
    exact absurd hx List.not_mem_nil
  · rw [entriesIn_eq a hs] at hx
    exact mem_of_mem_stretch hx

/-- A tensor with one number in every place keeps it when it is stretched. -/
theorem entriesIn_replicate {s t : Shape} (h : s.StretchesTo t) (x : α) :
    (replicate s x).entriesIn t = List.replicate (volume t) x := by
  apply List.eq_replicate_iff.mpr
  constructor
  · exact length_entriesIn_of_stretchesTo (a := replicate s x) h
  · intro y hy
    exact List.eq_of_mem_replicate (mem_of_mem_entriesIn hy)

/-- Whether a tensor becomes another one when it is stretched to the other one's shape. -/
structure StretchesTo (a b : Tensor α) : Prop where
  shape : Shape.StretchesTo a.shape b.shape
  data : b.data = a.entriesIn b.shape

theorem StretchesTo.refl (a : Tensor α) : a.StretchesTo a :=
  ⟨.refl a.shape, (entriesIn_self a).symm⟩

theorem StretchesTo.trans {a b c : Tensor α} (hab : a.StretchesTo b) (hbc : b.StretchesTo c) :
    a.StretchesTo c := by
  refine ⟨hab.shape.trans hbc.shape, ?_⟩
  rw [hbc.data, entriesIn_trans hab.shape hbc.shape hab.data]

theorem StretchesTo.map (f : α → β) {a b : Tensor α} (h : a.StretchesTo b) :
    (a.map f).StretchesTo (b.map f) := by
  refine ⟨h.shape, ?_⟩
  have hentries := entriesIn_map f h.shape
  exact (congrArg (List.map f) h.data).trans hentries.symm

theorem broadcastTo_eq_ok {a b : Tensor α} (h : a.StretchesTo b)
    (haddressable : b.shape.isAddressable = true) :
    a.broadcastTo b.shape = (.ok b : Except (AlgebraError ε) (Tensor α)) := by
  obtain ⟨s, d, hd⟩ := b
  have hdata : d = a.entriesIn s := h.data
  subst hdata
  rw [broadcastTo, dif_pos (Shape.fits_iff.mpr ⟨h.shape, haddressable⟩)]

theorem joinShapes_eq_ok {s t u : Shape} :
    joinShapes s t = (.ok u : Except (AlgebraError ε) Shape) ↔ s.join? t = some u := by
  unfold joinShapes
  cases s.join? t with
  | none => simp
  | some v => simp

/-- What an operation on two tensors gives. -/
theorem of_zipWith_eq_ok {f : α → β → γ} {a : Tensor α} {b : Tensor β} {r : Tensor γ}
    (h : a.zipWith f b = (.ok r : Except (AlgebraError ε) (Tensor γ))) :
    a.shape.join? b.shape = some r.shape ∧ r.shape.isAddressable = true ∧
      r.data = List.zipWith f (a.entriesIn r.shape) (b.entriesIn r.shape) := by
  obtain ⟨s, hs, h⟩ := exists_of_bind_eq_ok h
  split_ifs at h with hfits
  obtain rfl := Except.ok.inj h
  exact ⟨joinShapes_eq_ok.mp hs, (Shape.fits_iff.mp hfits.1).2, rfl⟩

theorem exists_zipWith (f : α → β → γ) {a : Tensor α} {b : Tensor β} {s : Shape}
    (hs : a.shape.join? b.shape = some s) (haddressable : s.isAddressable = true) :
    ∃ r : Tensor γ, a.zipWith f b = (.ok r : Except (AlgebraError ε) (Tensor γ)) ∧ r.shape = s ∧
      r.data = List.zipWith f (a.entriesIn s) (b.entriesIn s) := by
  obtain ⟨ha, hb⟩ := Shape.join?_eq_some hs
  have hfits : a.shape.fits s = true ∧ b.shape.fits s = true :=
    ⟨Shape.fits_iff.mpr ⟨ha, haddressable⟩, Shape.fits_iff.mpr ⟨hb, haddressable⟩⟩
  refine ⟨⟨s, List.zipWith f (a.entriesIn s) (b.entriesIn s), ?_⟩, ?_, rfl, rfl⟩
  · rw [List.length_zipWith, length_entriesIn hfits.1, length_entriesIn hfits.2, Nat.min_self]
  · rw [zipWith, joinShapes_eq_ok.mpr hs]
    exact dif_pos hfits

/-- Where two tensors have no joint shape that can be addressed, they are refused. -/
theorem zipWith_eq_error {f : α → β → γ} {a : Tensor α} {b : Tensor β}
    (h : ∀ s, a.shape.join? b.shape = some s → s.isAddressable = false) :
    a.zipWith f b = (.error (.broadcast a.shape b.shape) :
      Except (AlgebraError ε) (Tensor γ)) := by
  cases hs : a.shape.join? b.shape with
  | none =>
    rw [zipWith, joinShapes, hs]
    rfl
  | some s =>
    rw [zipWith, joinShapes_eq_ok.mpr hs]
    exact dif_neg fun hfits => Shape.not_fits (h s hs) hfits.1

/-- What mapping the entries into a joint shape gives. -/
theorem of_mapIn_eq_ok {f : α → β} {a : Tensor α} {s : Shape} {r : Tensor β}
    (h : a.mapIn f s = (.ok r : Except (AlgebraError ε) (Tensor β))) :
    a.shape.join? s = some r.shape ∧ r.shape.isAddressable = true ∧ (a.map f).StretchesTo r := by
  obtain ⟨t, ht, h⟩ := exists_of_bind_eq_ok h
  unfold broadcastTo at h
  split_ifs at h with hfits
  obtain rfl := Except.ok.inj h
  obtain ⟨hshape, haddressable⟩ := Shape.fits_iff.mp hfits
  exact ⟨joinShapes_eq_ok.mp ht, haddressable, hshape, rfl⟩

theorem exists_mapIn (f : α → β) {a : Tensor α} {s t : Shape} (ht : a.shape.join? s = some t)
    (haddressable : t.isAddressable = true) :
    ∃ r : Tensor β, a.mapIn f s = (.ok r : Except (AlgebraError ε) (Tensor β)) ∧ r.shape = t ∧
      (a.map f).StretchesTo r := by
  have hshape : Shape.StretchesTo (a.map f).shape t := (Shape.join?_eq_some ht).1
  have hfits : (a.map f).shape.fits t = true := Shape.fits_iff.mpr ⟨hshape, haddressable⟩
  refine ⟨⟨t, (a.map f).entriesIn t, length_entriesIn hfits⟩, ?_, rfl, hshape, rfl⟩
  rw [mapIn, joinShapes_eq_ok.mpr ht]
  exact dif_pos hfits

theorem mapIn_eq_error (f : α → β) {a : Tensor α} {s t : Shape} (ht : a.shape.join? s = some t)
    (hlarge : t.isAddressable = false) :
    a.mapIn f s = (.error (.broadcast a.shape t) : Except (AlgebraError ε) (Tensor β)) := by
  have hfits : ¬ (a.map f).shape.fits t = true := Shape.not_fits hlarge
  rw [mapIn, joinShapes_eq_ok.mpr ht]
  exact dif_neg hfits

theorem StretchesTo.mapIn (f : α → β) {a b : Tensor α} {s t : Shape} {r : Tensor β}
    (hab : a.StretchesTo b) (hst : Shape.StretchesTo s t)
    (h : b.mapIn f t = (.ok r : Except (AlgebraError ε) (Tensor β))) :
    ∃ q : Tensor β, a.mapIn f s = (.ok q : Except (AlgebraError ε) (Tensor β)) ∧
      q.StretchesTo r := by
  obtain ⟨hjoin, haddressable, hr⟩ := of_mapIn_eq_ok h
  obtain ⟨hb, ht⟩ := Shape.join?_eq_some hjoin
  obtain ⟨u, hu, hur⟩ := Shape.exists_join? (hab.shape.trans hb) (hst.trans ht)
  obtain ⟨q, hq, rfl, hqa⟩ := exists_mapIn (ε := ε) f hu
    (Shape.isAddressable_of_stretchesTo hur haddressable)
  refine ⟨q, hq, hur, ?_⟩
  -- Both results stretch from `a`, the one by way of `q` and the other by way of `b`.
  have hbr := hr.data
  rw [hbr, entriesIn_trans hqa.shape hur hqa.data,
    entriesIn_trans (hab.map f).shape hr.shape (hab.map f).data]

/-- Stretching commutes with combining entries. -/
theorem entriesIn_zipWith (f : α → β → γ) {s t : Shape} (hst : Shape.StretchesTo s t)
    {l : List α} {m : List β} (hl : l.length = volume s) (hm : m.length = volume s)
    (h : (List.zipWith f l m).length = volume s) :
    entriesIn ⟨s, List.zipWith f l m, h⟩ t =
      List.zipWith f (entriesIn ⟨s, l, hl⟩ t) (entriesIn ⟨s, m, hm⟩ t) := by
  -- The three tensors are images of the tensor of pairs.
  have hlm : l.length = m.length := hl.trans hm.symm
  have hlength : (l.zip m).length = volume s := by rw [List.length_zip, hl, hm, Nat.min_self]
  let pairs : Tensor (α × β) := ⟨s, l.zip m, hlength⟩
  have hleft : entriesIn ⟨s, l, hl⟩ t = (pairs.entriesIn t).map Prod.fst := by
    have hmap := entriesIn_map (a := pairs) Prod.fst hst
    simpa only [pairs, map, List.map_fst_zip (Nat.le_of_eq hlm)] using hmap
  have hright : entriesIn ⟨s, m, hm⟩ t = (pairs.entriesIn t).map Prod.snd := by
    have hmap := entriesIn_map (a := pairs) Prod.snd hst
    simpa only [pairs, map, List.map_snd_zip (Nat.le_of_eq hlm.symm)] using hmap
  have hboth : entriesIn ⟨s, List.zipWith f l m, h⟩ t =
      (pairs.entriesIn t).map fun p => f p.1 p.2 := by
    have hmap := entriesIn_map (a := pairs) (fun p => f p.1 p.2) hst
    simp only [pairs, map, List.map_zip_eq_zipWith] at hmap
    exact hmap
  rw [hleft, hright, hboth, List.zipWith_map, List.zipWith_self]

theorem StretchesTo.zipWith (f : α → β → γ) {a a' : Tensor α} {b b' : Tensor β} {r : Tensor γ}
    (ha : a.StretchesTo a') (hb : b.StretchesTo b')
    (h : a'.zipWith f b' = (.ok r : Except (AlgebraError ε) (Tensor γ))) :
    ∃ q : Tensor γ, a.zipWith f b = (.ok q : Except (AlgebraError ε) (Tensor γ)) ∧
      q.StretchesTo r := by
  obtain ⟨hjoin, haddressable, hr⟩ := of_zipWith_eq_ok h
  obtain ⟨har, hbr⟩ := Shape.join?_eq_some hjoin
  obtain ⟨v, hv, hur⟩ := Shape.exists_join? (ha.shape.trans har) (hb.shape.trans hbr)
  have haddressable' := Shape.isAddressable_of_stretchesTo hur haddressable
  obtain ⟨hau, hbu⟩ := Shape.join?_eq_some hv
  obtain ⟨⟨u, d, hd⟩, hq, hshape, hdata⟩ := exists_zipWith (ε := ε) f hv haddressable'
  obtain rfl : v = u := hshape.symm
  obtain rfl : d = List.zipWith f (a.entriesIn v) (b.entriesIn v) := hdata
  refine ⟨_, hq, hur, ?_⟩
  have hlengtha := length_entriesIn_of_stretchesTo hau
  have hlengthb := length_entriesIn_of_stretchesTo hbu
  -- The operands are stretched to their own joint shape `v` first, and with the result then.
  have hleft := entriesIn_trans (b := ⟨v, a.entriesIn v, hlengtha⟩) hau hur rfl
  have hright := entriesIn_trans (b := ⟨v, b.entriesIn v, hlengthb⟩) hbu hur rfl
  rw [hr, entriesIn_zipWith f hur hlengtha hlengthb hd, hleft, hright,
    entriesIn_trans ha.shape har ha.data, entriesIn_trans hb.shape hbr hb.data]

end Tensor

end FormulaCalculus
