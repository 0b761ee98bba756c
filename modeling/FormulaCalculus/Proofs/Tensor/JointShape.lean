import FormulaCalculus.Proofs.Tensor.Shape

/-!
The joint shape of any number of shapes: the least shape that all of them stretch to. Being the
least one, it depends neither on the order of the shapes nor on how they are put together.
-/

namespace FormulaCalculus

namespace Shape

variable {s t u v : Shape} {l m : List Shape}

theorem AxisStretches.antisymm {m n : Nat} (h : AxisStretches m n) (h' : AxisStretches n m) :
    m = n := by
  unfold AxisStretches at h h'
  omega

theorem InnerStretches.antisymm (h : InnerStretches s t) (h' : InnerStretches t s) : s = t := by
  induction s generalizing t with
  | nil =>
    cases t with
    | nil => rfl
    | cons n t => exact h'.elim
  | cons m s ih =>
    cases t with
    | nil => exact h.elim
    | cons n t => rw [h.1.antisymm h'.1, ih h.2 h'.2]

/-- Two shapes that stretch to each other are the same. -/
theorem StretchesTo.antisymm (h : StretchesTo s t) (h' : StretchesTo t s) : s = t := by
  rw [stretchesTo_iff] at h h'
  exact List.reverse_injective (h.antisymm h')

theorem nil_stretchesTo (s : Shape) : StretchesTo [] s := by
  rw [stretchesTo_iff]
  trivial

theorem eq_nil_of_stretchesTo (h : StretchesTo s []) : s = [] :=
  h.antisymm (nil_stretchesTo s)

/-- What two shapes stretch to, their joint shape stretches to. -/
theorem StretchesTo.of_join (h : join? s t = some u) (hs : StretchesTo s v)
    (ht : StretchesTo t v) : StretchesTo u v := by
  obtain ⟨w, hw, hwv⟩ := exists_join? hs ht
  obtain rfl := Option.some.inj (h.symm.trans hw)
  exact hwv

/-- The joint shape stretches to exactly those shapes that both shapes stretch to. -/
theorem join?_eq_some_iff :
    join? s t = some u ↔ ∀ v, StretchesTo u v ↔ StretchesTo s v ∧ StretchesTo t v := by
  constructor
  · intro h v
    obtain ⟨hs, ht⟩ := join?_eq_some h
    exact ⟨fun hv => ⟨hs.trans hv, ht.trans hv⟩, fun hv => .of_join h hv.1 hv.2⟩
  · intro h
    obtain ⟨hs, ht⟩ := (h u).mp (.refl u)
    obtain ⟨w, hw, hwu⟩ := exists_join? hs ht
    have huw : StretchesTo u w := (h w).mpr (join?_eq_some hw)
    rw [hw, hwu.antisymm huw]

/-- A shape takes in every shape that stretches to it. -/
theorem join?_of_stretchesTo (h : StretchesTo t s) : join? s t = some s :=
  join?_eq_some_iff.mpr fun _ => ⟨fun hv => ⟨hv, h.trans hv⟩, And.left⟩

/-- The shape that all shapes of a list are stretched to, if there is one. -/
def joinAll? : List Shape → Option Shape
  | [] => some []
  | s :: l => (joinAll? l).bind fun t => join? s t

/-- Whether a shape stretches to exactly those shapes that all shapes of a list stretch to. -/
def IsJoint (l : List Shape) (u : Shape) : Prop :=
  ∀ v, StretchesTo u v ↔ ∀ s ∈ l, StretchesTo s v

theorem IsJoint.above (h : IsJoint l u) (hs : s ∈ l) : StretchesTo s u := (h u).mp (.refl u) s hs

theorem isJoint_of_joinAll? (h : joinAll? l = some u) : IsJoint l u := by
  intro v
  induction l generalizing u with
  | nil =>
    obtain rfl := Option.some.inj h
    exact ⟨fun _ s hs => absurd hs List.not_mem_nil, fun _ => nil_stretchesTo v⟩
  | cons s l ih =>
    obtain ⟨t, ht, hjoin⟩ := Option.bind_eq_some_iff.mp h
    rw [join?_eq_some_iff.mp hjoin v, ih ht, List.forall_mem_cons]

/-- Shapes that stretch to a common shape have a joint shape. -/
theorem exists_joinAll? (h : ∀ s ∈ l, StretchesTo s u) : ∃ t, joinAll? l = some t := by
  induction l with
  | nil => exact ⟨[], rfl⟩
  | cons s l ih =>
    obtain ⟨hs, hl⟩ := List.forall_mem_cons.mp h
    obtain ⟨t, ht⟩ := ih hl
    have htu : StretchesTo t u := (isJoint_of_joinAll? ht u).mpr hl
    obtain ⟨r, hr, -⟩ := exists_join? hs htu
    exact ⟨r, by rw [joinAll?, ht, Option.bind_some, hr]⟩

theorem joinAll?_eq_some_iff : joinAll? l = some u ↔ IsJoint l u := by
  refine ⟨isJoint_of_joinAll?, fun h => ?_⟩
  obtain ⟨t, ht⟩ := exists_joinAll? fun s => h.above
  have hjoint := isJoint_of_joinAll? ht
  have htu : StretchesTo t u := (hjoint u).mpr fun s => h.above
  have hut : StretchesTo u t := (h t).mpr fun s => hjoint.above
  rw [ht, htu.antisymm hut]

theorem joinAll?_singleton (s : Shape) : joinAll? [s] = some s :=
  join?_of_stretchesTo (nil_stretchesTo s)

/-- The joint shape of two lists of shapes is that of their joint shapes. -/
theorem joinAll?_append (l m : List Shape) :
    joinAll? (l ++ m) = (joinAll? l).bind fun s => (joinAll? m).bind fun t => join? s t := by
  apply Option.ext
  intro u
  rw [joinAll?_eq_some_iff, Option.bind_eq_some_iff]
  constructor
  · intro h
    obtain ⟨s, hs⟩ := exists_joinAll? fun r (hr : r ∈ l) => h.above (List.mem_append_left m hr)
    obtain ⟨t, ht⟩ := exists_joinAll? fun r (hr : r ∈ m) => h.above (List.mem_append_right l hr)
    refine ⟨s, hs, ?_⟩
    rw [ht, Option.bind_some, join?_eq_some_iff]
    intro v
    rw [h v, List.forall_mem_append, isJoint_of_joinAll? hs v, isJoint_of_joinAll? ht v]
  · rintro ⟨s, hs, h⟩
    obtain ⟨t, ht, hjoin⟩ := Option.bind_eq_some_iff.mp h
    intro v
    rw [join?_eq_some_iff.mp hjoin v, List.forall_mem_append, isJoint_of_joinAll? hs v,
      isJoint_of_joinAll? ht v]

theorem joinAll?_pair (s t : Shape) : joinAll? [s, t] = join? s t := by
  rw [joinAll?, joinAll?_singleton, Option.bind_some]

/-- Three shapes have the same joint shape, or none, whichever two are put together first. -/
theorem join?_assoc (s t u : Shape) :
    ((join? s t).bind fun v => join? v u) = (join? t u).bind fun v => join? s v := by
  have hleft := joinAll?_append [s, t] [u]
  have hright : joinAll? [s, t, u] = (joinAll? [t, u]).bind fun v => join? s v := rfl
  simp only [joinAll?_singleton, Option.bind_some, joinAll?_pair] at hleft hright
  rw [← hleft, ← hright]
  rfl

theorem join?_self (s : Shape) : join? s s = some s := join?_of_stretchesTo (.refl s)

theorem nil_join? (s : Shape) : join? [] s = some s := by
  rw [join?_comm]
  exact join?_of_stretchesTo (nil_stretchesTo s)

/-- A shape stretches to those shapes that it does not change when it joins them. -/
theorem stretchesTo_iff_join? : StretchesTo s t ↔ join? s t = some t := by
  constructor
  · intro h
    rw [join?_comm]
    exact join?_of_stretchesTo h
  · intro h
    exact (join?_eq_some h).1

/-- Shapes with axes have a joint shape with axes. -/
theorem ne_nil_of_joinAll? (h : joinAll? l = some u) (hne : l ≠ []) (hl : ∀ s ∈ l, s ≠ []) :
    u ≠ [] := by
  obtain ⟨s, l, rfl⟩ := List.exists_cons_of_ne_nil hne
  rintro rfl
  have hs : StretchesTo s [] := (isJoint_of_joinAll? h).above List.mem_cons_self
  exact hl s List.mem_cons_self (eq_nil_of_stretchesTo hs)

end Shape

end FormulaCalculus
