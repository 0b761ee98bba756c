import FormulaCalculus.Proofs.Alike.Constants
import FormulaCalculus.Proofs.Tensor.Stretching

/-!
Alike values: tensors of one shape with alike entries, or alike constants. Sums, differences,
products and opposites of alike values are alike, and so are quotients by the same divisor; where
the one can be calculated, so can the other.
-/

namespace FormulaCalculus

variable {α : Type} [Scalar α]

/-- Whether two tensors have one shape and related entries. -/
structure Tensor.Related (R : α → α → Prop) (a b : Tensor α) : Prop where
  shape : a.shape = b.shape
  data : List.Forall₂ R a.data b.data

/-- Whether two tensors have one shape and alike entries. -/
def Tensor.Alike (a b : Tensor α) : Prop := Related Scalar.Alike a b

/-- Whether two values are alike tensors or alike constants. -/
inductive Value.Alike : Value α → Value α → Prop
  | tensor {a b : Tensor α} (h : a.Alike b) : Alike (.tensor a) (.tensor b)
  | symbol {c d : Constant α} (h : c.Alike d) : Alike (.symbol c) (.symbol d)

theorem forall₂_zipWith {β γ δ : Type} {R : β → β → Prop} {S : γ → γ → Prop} {T : δ → δ → Prop}
    {f g : β → γ → δ} (hf : ∀ x x' y y', R x x' → S y y' → T (f x y) (g x' y')) {l l' : List β}
    {m m' : List γ} (hl : List.Forall₂ R l l') (hm : List.Forall₂ S m m') :
    List.Forall₂ T (List.zipWith f l m) (List.zipWith g l' m') := by
  induction hl generalizing m m' with
  | nil => exact .nil
  | cons hx _ ih =>
    cases hm with
    | nil => exact .nil
    | cons hy hm => exact .cons (hf _ _ _ _ hx hy) (ih hm)

namespace Tensor

variable {R S T : α → α → Prop} {a a' b b' r : Tensor α} {t : Shape}

omit [Scalar α] in
/-- Stretching repeats entries, so the entries stay related. -/
theorem Related.entriesIn (h : Related R a b) (ht : a.shape.StretchesTo t) :
    List.Forall₂ R (a.entriesIn t) (b.entriesIn t) := by
  -- both tensors are images of the tensor of pairs
  obtain ⟨s, l, hl⟩ := a
  obtain ⟨s', m, hm⟩ := b
  obtain rfl : s = s' := h.shape
  have hlm : l.length = m.length := hl.trans hm.symm
  have hlength : (l.zip m).length = Shape.volume s := by
    rw [List.length_zip, hl, hm, Nat.min_self]
  let pairs : Tensor (α × α) := ⟨s, l.zip m, hlength⟩
  have hleft : Tensor.entriesIn ⟨s, l, hl⟩ t = (pairs.entriesIn t).map Prod.fst := by
    have hmap := entriesIn_map (a := pairs) Prod.fst ht
    simpa only [pairs, map, List.map_fst_zip (Nat.le_of_eq hlm)] using hmap
  have hright : Tensor.entriesIn ⟨s, m, hm⟩ t = (pairs.entriesIn t).map Prod.snd := by
    have hmap := entriesIn_map (a := pairs) Prod.snd ht
    simpa only [pairs, map, List.map_snd_zip (Nat.le_of_eq hlm.symm)] using hmap
  rw [hleft, hright, List.forall₂_map_left_iff, List.forall₂_map_right_iff, List.forall₂_same]
  intro p hp
  exact (List.forall₂_iff_zip.mp h.data).2 (mem_of_mem_entriesIn hp)

omit [Scalar α] in
theorem Related.mapIn {g g' : α → α} {s : Shape} (h : Related R a b)
    (hg : ∀ x y, R x y → S (g x) (g' y))
    (hr : a.mapIn g s = (.ok r : Except (AlgebraError α) (Tensor α))) :
    ∃ q, b.mapIn g' s = (.ok q : Except (AlgebraError α) (Tensor α)) ∧ Related S r q := by
  obtain ⟨hjoin, haddressable, hstretch⟩ := of_mapIn_eq_ok hr
  have har : a.shape.StretchesTo r.shape := hstretch.shape
  obtain ⟨q, hq, hshape, hstretch'⟩ := exists_mapIn (ε := α) g' (h.shape ▸ hjoin) haddressable
  refine ⟨q, hq, hshape.symm, ?_⟩
  rw [hstretch.data, hstretch'.data, hshape, entriesIn_map g har, entriesIn_map g' (h.shape ▸ har),
    List.forall₂_map_left_iff, List.forall₂_map_right_iff]
  exact (h.entriesIn har).imp hg

omit [Scalar α] in
theorem Related.zipWith {f g : α → α → α} (ha : Related R a a') (hb : Related S b b')
    (hf : ∀ x x' y y', R x x' → S y y' → T (f x y) (g x' y'))
    (hr : a.zipWith f b = (.ok r : Except (AlgebraError α) (Tensor α))) :
    ∃ q, a'.zipWith g b' = (.ok q : Except (AlgebraError α) (Tensor α)) ∧ Related T r q := by
  obtain ⟨hjoin, haddressable, hdata⟩ := of_zipWith_eq_ok hr
  obtain ⟨har, hbr⟩ := Shape.join?_eq_some hjoin
  rw [ha.shape, hb.shape] at hjoin
  obtain ⟨q, hq, hshape, hdata'⟩ := exists_zipWith (ε := α) g hjoin haddressable
  refine ⟨q, hq, hshape.symm, ?_⟩
  rw [hdata, hdata']
  exact forall₂_zipWith hf (ha.entriesIn har) (hb.entriesIn hbr)

omit [Scalar α] in
theorem related_self (a : Tensor α) : Related Eq a a :=
  ⟨rfl, List.forall₂_same.mpr fun _ _ => rfl⟩

/-- Alike tensors that are the same under some condition. -/
theorem Alike.related {p : Prop} (h : a.Alike b) (hp : p → a = b) :
    Related (fun x y => Scalar.Alike x y ∧ (p → x = y)) a b := by
  by_cases hcondition : p
  · obtain rfl := hp hcondition
    refine ⟨rfl, List.forall₂_same.mpr fun x hx => ⟨?_, fun _ => rfl⟩⟩
    exact (List.forall₂_same.mp h.data) x hx
  · exact ⟨h.shape, h.data.imp fun _ _ hxy => ⟨hxy, fun h => absurd h hcondition⟩⟩

theorem Alike.neg [LawfulRounding α] (h : a.Alike b) :
    (a.map fun x => -x).Alike (b.map fun x => -x) := by
  refine ⟨h.shape, ?_⟩
  exact List.forall₂_map_left_iff.mpr (List.forall₂_map_right_iff.mpr (h.data.imp fun _ _ => .neg))

theorem Alike.refl [LawfulRounding α] (a : Tensor α) : a.Alike a :=
  ⟨rfl, List.forall₂_same.mpr fun x _ => .refl x⟩

end Tensor

namespace Value.Alike

variable {v v' w w' r : Value α} {a a' b b' : Tensor α} {c c' d d' : Constant α} {f : BinaryFn}
  {R : α → α → Prop} {j : Except (AlgebraError α) Shape}

/-- A short cut that maps the entries of a tensor. -/
theorem combineWith {g g' : α → α} (ha : Tensor.Related R a a') (hc : c.shape = c'.shape)
    (hg : ∀ x y, R x y → Scalar.Alike (g x) (g' y))
    (h : (j >>= fun _ => a.combineWith g c) = .ok r) :
    ∃ q, (j >>= fun _ => a'.combineWith g' c') = .ok q ∧ r.Alike q := by
  obtain ⟨s, hj, hcombine⟩ := exists_of_bind_eq_ok h
  obtain ⟨b, hb, hr⟩ := exists_of_bind_eq_ok hcombine
  obtain rfl := Except.ok.inj hr
  obtain ⟨q, hq, hbq⟩ := ha.mapIn hg hb
  refine ⟨.tensor q, ?_, .tensor hbq⟩
  rw [hc] at hq
  unfold Tensor.combineWith
  rw [hj, hq]
  rfl

variable [LawfulRounding α]

theorem refl (v : Value α) : v.Alike v := by
  cases v with
  | tensor a => exact .tensor (.refl a)
  | symbol c => exact .symbol (.refl c)

theorem neg (h : v.Alike w) : (UnaryFn.neg.onValue v).Alike (UnaryFn.neg.onValue w) := by
  cases h with
  | tensor h => exact .tensor h.neg
  | @symbol c d h =>
    refine .symbol ?_
    cases h with
    | number flag s h => exact .ofNumber flag s h.neg
    | _ => exact .refl _

/-- Alike constants enter a tensor alike. -/
theorem realPart {op : String} {x : α} (h : c.Alike d) (hx : Value.realPart op c = .ok x) :
    ∃ y, Value.realPart op d = .ok y ∧ Scalar.Alike x y := by
  have hreal := h.value.isReal
  unfold Value.realPart ComplexNumber.asReal? at hx ⊢
  rw [← hreal]
  cases hc : c.value.isReal with
  | false =>
    rw [hc] at hx
    nomatch hx
  | true =>
    rw [hc] at hx
    obtain rfl := Except.ok.inj hx
    exact ⟨_, rfl, h.value.re⟩

/-- A tensor and a constant that enters it. -/
theorem combineReal {op : String} {g : α → α → α} (ha : Tensor.Related R a a') (hc : c.Alike c')
    (hg : ∀ x y x' y', Scalar.Alike x y → (c = c' → x = y) → R x' y' →
      Scalar.Alike (g x x') (g y y'))
    (h : (j >>= fun _ => Value.realPart op c >>= fun x => a.combineWith (g x) c) = .ok r) :
    ∃ q, (j >>= fun _ => Value.realPart op c' >>= fun x => a'.combineWith (g x) c') = .ok q ∧
      r.Alike q := by
  obtain ⟨s, hj, hreal⟩ := exists_of_bind_eq_ok h
  obtain ⟨x, hx, hcombine⟩ := exists_of_bind_eq_ok hreal
  obtain ⟨y, hy, hxy⟩ := realPart hc hx
  have hsame : c = c' → x = y := by
    rintro rfl
    exact Except.ok.inj (hx.symm.trans hy)
  obtain ⟨q, hq, hrq⟩ := combineWith (j := .ok s) ha hc.shape
    (fun x' y' h' => hg x y x' y' hxy hsame h') hcombine
  refine ⟨q, ?_, hrq⟩
  rw [hj, hy]
  exact hq

/-- The function on a tensor and a constant. -/
theorem onTensorConstant (hf : f.IsArithmetic) (ha : a.Alike a') (hd : d.Alike d')
    (hdiv : f = .div → d = d') (h : f.onTensorConstant a d = .ok r) :
    ∃ q, f.onTensorConstant a' d' = .ok q ∧ r.Alike q := by
  obtain ⟨s, l, hl⟩ := a
  obtain ⟨s', l', hl'⟩ := a'
  obtain rfl : s = s' := ha.shape
  have hneg (x y : α) (h : Scalar.Alike x y) : Scalar.Alike (-x) (-y) := h.neg
  have hreal (x y x' y' : α) (h : Scalar.Alike x y) (hsame : d = d' → x = y)
      (h' : Scalar.Alike x' y') : Scalar.Alike (f.real x' x) (f.real y' y) :=
    h'.real hf h fun hf => hsame (hdiv hf)
  cases hd with
  | nan t => cases f <;> exact ⟨r, h, .refl r⟩
  | zero t =>
    cases f with
    | add | sub => exact combineWith (c := .zero t) ha rfl (fun _ _ h => h) h
    | mul | div => exact ⟨r, h, .refl r⟩
    | pow => exact absurd rfl hf.1
    | atan2 => exact absurd rfl hf.2
  | unity t =>
    cases f with
    | mul | div => exact combineWith (c := .unity t) ha rfl (fun _ _ h => h) h
    | add | sub => exact combineReal ha (.unity t) hreal h
    | pow => exact absurd rfl hf.1
    | atan2 => exact absurd rfl hf.2
  | negUnity t =>
    cases f with
    | mul | div => exact combineWith (c := .negUnity t) ha rfl hneg h
    | add | sub => exact combineReal ha (.negUnity t) hreal h
    | pow => exact absurd rfl hf.1
    | atan2 => exact absurd rfl hf.2
  | number flag t hz => cases f <;> exact combineReal ha (.number flag t hz) hreal h

/-- The function on a constant and a tensor. -/
theorem onConstantTensor (hf : f.IsArithmetic) (hc : c.Alike c') (hb : b.Alike b')
    (hdiv : f = .div → b = b') (h : f.onConstantTensor c b = .ok r) :
    ∃ q, f.onConstantTensor c' b' = .ok q ∧ r.Alike q := by
  have hneg (x y : α) (h : Scalar.Alike x y ∧ (f = .div → x = y)) : Scalar.Alike (-x) (-y) :=
    h.1.neg
  have hreal (x y x' y' : α) (h : Scalar.Alike x y) (_ : c = c' → x = y)
      (h' : Scalar.Alike x' y' ∧ (f = .div → x' = y')) :
      Scalar.Alike (f.real x x') (f.real y y') := h.real hf h'.1 h'.2
  have hrelated := hb.related hdiv
  -- zero divided by a tensor depends on which divisors are zero, and these are the same
  by_cases hsame : f = .div ∧ c = c'
  · obtain ⟨rfl, rfl⟩ := hsame
    obtain rfl := hdiv rfl
    exact ⟨r, h, .refl r⟩
  obtain ⟨s, l, hl⟩ := b
  obtain ⟨s', l', hl'⟩ := b'
  obtain rfl : s = s' := hb.shape
  cases hc with
  | nan t => cases f <;> exact ⟨r, h, .refl r⟩
  | zero t =>
    cases f with
    | add => exact combineWith (c := .zero t) hrelated rfl (fun _ _ h => h.1) h
    | sub => exact combineWith (c := .zero t) hrelated rfl hneg h
    | mul => exact ⟨r, h, .refl r⟩
    | div => exact absurd ⟨rfl, rfl⟩ hsame
    | pow => exact absurd rfl hf.1
    | atan2 => exact absurd rfl hf.2
  | unity t =>
    cases f with
    | mul => exact combineWith (c := .unity t) hrelated rfl (fun _ _ h => h.1) h
    | add | sub | div => exact combineReal hrelated (.unity t) hreal h
    | pow => exact absurd rfl hf.1
    | atan2 => exact absurd rfl hf.2
  | negUnity t =>
    cases f with
    | mul => exact combineWith (c := .negUnity t) hrelated rfl hneg h
    | add | sub | div => exact combineReal hrelated (.negUnity t) hreal h
    | pow => exact absurd rfl hf.1
    | atan2 => exact absurd rfl hf.2
  | number flag t hz => cases f <;> exact combineReal hrelated (.number flag t hz) hreal h

/-- The function on alike values. -/
theorem onValues (hf : f.IsArithmetic) (hv : v.Alike v') (hw : w.Alike w')
    (hdiv : f = .div → w = w') (h : f.onValues v w = .ok r) :
    ∃ q, f.onValues v' w' = .ok q ∧ r.Alike q := by
  cases hv with
  | @tensor a a' ha =>
    cases hw with
    | @tensor b b' hb =>
      obtain ⟨p, hp, h⟩ := exists_of_bind_eq_ok h
      obtain rfl := Except.ok.inj h
      have hrelated := hb.related fun h => Value.tensor.inj (hdiv h)
      obtain ⟨q, hq, hpq⟩ := Tensor.Related.zipWith (f := f.real) ha hrelated
        (fun _ _ _ _ hx hy => hx.real hf hy.1 hy.2) hp
      refine ⟨.tensor q, ?_, .tensor hpq⟩
      unfold BinaryFn.onValues
      dsimp only
      rw [hq]
      rfl
    | symbol hd =>
      exact onTensorConstant hf ha hd (fun h => Value.symbol.inj (hdiv h)) h
  | symbol hc =>
    cases hw with
    | tensor hb => exact onConstantTensor hf hc hb (fun h => Value.tensor.inj (hdiv h)) h
    | symbol hd =>
      obtain ⟨e, he, h⟩ := exists_of_bind_eq_ok h
      obtain rfl := Except.ok.inj h
      obtain ⟨e', he', hee'⟩ :=
        hc.onConstants hf hd (fun h => Value.symbol.inj (hdiv h)) he
      refine ⟨.symbol e', ?_, .symbol hee'⟩
      unfold BinaryFn.onValues
      dsimp only
      rw [he']
      rfl

end Value.Alike

end FormulaCalculus
