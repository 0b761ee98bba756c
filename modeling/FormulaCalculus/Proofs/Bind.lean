/-!
Calculations that may fail, one behind another. The whole succeeds if both parts do, and fails
where the first part to fail does, also along a list. Putting an error in other words changes
nothing else.
-/

namespace FormulaCalculus

variable {α β ε : Type} {x : Except ε α} {f : α → Except ε β}

theorem exists_of_bind_eq_ok {b : β} (h : x >>= f = .ok b) : ∃ a, x = .ok a ∧ f a = .ok b := by
  cases x with
  | error e => nomatch h
  | ok a => exact ⟨a, rfl, h⟩

theorem bind_eq_ok_iff {b : β} : x >>= f = .ok b ↔ ∃ a, x = .ok a ∧ f a = .ok b := by
  constructor
  · exact exists_of_bind_eq_ok
  · rintro ⟨a, rfl, hb⟩
    exact hb

theorem bind_eq_error {e : ε} (h : x >>= f = .error e) :
    x = .error e ∨ ∃ a, x = .ok a ∧ f a = .error e := by
  cases x with
  | error d => exact Or.inl (congrArg Except.error (Except.error.inj h))
  | ok a => exact Or.inr ⟨a, rfl, h⟩

theorem exists_of_mapError_eq_error {ε' : Type} {g : ε → ε'} {e : ε'}
    (h : x.mapError g = .error e) : ∃ d, x = .error d ∧ e = g d := by
  cases x with
  | error d => exact ⟨d, rfl, (Except.error.inj h).symm⟩
  | ok a => nomatch h

theorem of_mapError_eq_ok {ε' : Type} {g : ε → ε'} {a : α} (h : x.mapError g = .ok a) :
    x = .ok a := by
  cases x with
  | error d => nomatch h
  | ok b => exact congrArg Except.ok (Except.ok.inj h)

/-- A list is run through up to the first element that is refused. -/
theorem mapM_eq_error_iff {g : α → Except ε β} {l : List α} {e : ε} :
    l.mapM g = .error e ↔ ∃ before a after,
      l = before ++ a :: after ∧ (∃ r, before.mapM g = .ok r) ∧ g a = .error e := by
  induction l with
  | nil =>
    constructor
    · intro h
      nomatch h
    · rintro ⟨before, b, after, hl, -⟩
      simp at hl
  | cons a l ih =>
    rw [List.mapM_cons]
    constructor
    · intro h
      rcases bind_eq_error h with ha | ⟨c, hc, h⟩
      · exact ⟨[], a, l, rfl, ⟨[], rfl⟩, ha⟩
      · rcases bind_eq_error h with hl | ⟨r, -, h⟩
        · obtain ⟨before, b, after, rfl, ⟨r, hr⟩, hb⟩ := ih.mp hl
          refine ⟨a :: before, b, after, rfl, ⟨c :: r, ?_⟩, hb⟩
          rw [List.mapM_cons, hc, hr]
          rfl
        · nomatch h
    · rintro ⟨before, b, after, hl, ⟨r, hr⟩, hb⟩
      cases before with
      | nil =>
        obtain ⟨rfl, rfl⟩ := List.cons.inj hl
        rw [hb]
        rfl
      | cons a' before =>
        obtain ⟨rfl, rfl⟩ := List.cons.inj hl
        rw [List.mapM_cons] at hr
        obtain ⟨c, hc, hr⟩ := exists_of_bind_eq_ok hr
        obtain ⟨r', hr', -⟩ := exists_of_bind_eq_ok hr
        rw [hc, ih.mpr ⟨before, b, after, rfl, ⟨r', hr'⟩, hb⟩]
        rfl

end FormulaCalculus
