import Mathlib.Data.List.Basic
import Mathlib.Data.List.TakeWhile
import Mathlib.Tactic.SplitIfs
import FormulaCalculus.Decimal.Numeral

/-!
The grammar of numerals, stated by rules. A text is read as a numeral if and only if it is a sign or
nothing, and then one of three words in any case, or digits with at most one point and an exponent
or nothing. The rules say nothing of the number that is read.
-/

namespace FormulaCalculus

theorem toLower_of_isDigit {c : Char} (hc : c.isDigit = true) : c.toLower = c := by
  simp only [Char.isDigit, Bool.and_eq_true, decide_eq_true_eq] at hc
  unfold Char.toLower
  split
  · rename_i hletter
    have hle : (65 : Nat) ≤ 57 := Nat.le_trans hletter.1 hc.2
    omega
  · rfl

/-- Behind digits that end there, the digits are all that is taken. -/
theorem takeWhile_isDigit_append {ds rest : List Char} (hds : ∀ c ∈ ds, c.isDigit = true)
    (hrest : ∀ c ∈ rest.head?, c.isDigit = false) :
    (ds ++ rest).takeWhile Char.isDigit = ds := by
  rw [List.takeWhile_append_of_pos hds]
  cases rest with
  | nil => simp
  | cons c rest =>
    have hc := hrest c rfl
    simp [hc]

namespace Numeral

/-! ### The rules -/

/-- Whether a text is one or more digits. -/
def IsDigits (ds : List Char) : Prop := ds ≠ [] ∧ ∀ c ∈ ds, c.isDigit = true

/-- Whether a text is a sign or nothing. -/
inductive IsSign : List Char → Prop
  | absent : IsSign []
  | minus : IsSign ['-']
  | plus : IsSign ['+']

/-- Whether a text is nothing, or a letter `e` and digits that may have a sign. -/
inductive IsExponent : List Char → Prop
  | absent : IsExponent []
  | power {c : Char} {s ds : List Char} (hc : c = 'e' ∨ c = 'E') (hs : IsSign s)
      (hds : IsDigits ds) : IsExponent (c :: (s ++ ds))

/-- Whether a text is digits with at most one point, which has digits on one side at least. -/
inductive IsPlaces : List Char → Prop
  | whole {ds : List Char} (hds : IsDigits ds) : IsPlaces ds
  | behind {ds fs : List Char} (hds : IsDigits ds) (hfs : ∀ c ∈ fs, c.isDigit = true) :
      IsPlaces (ds ++ '.' :: fs)
  | before {ds fs : List Char} (hds : ∀ c ∈ ds, c.isDigit = true) (hfs : IsDigits fs) :
      IsPlaces (ds ++ '.' :: fs)

/-- Whether a text is a word for infinity or for the value that is not a number, in any case. -/
def IsValueWord (cs : List Char) : Prop :=
  cs.map Char.toLower ∈ ["nan".toList, "inf".toList, "infinity".toList]

/-- Whether a text is a numeral without a sign and no word. -/
def IsUnsigned (cs : List Char) : Prop :=
  ∃ places e, cs = places ++ e ∧ IsPlaces places ∧ IsExponent e

/-- Whether a text is a numeral. -/
def Grammatical (cs : List Char) : Prop :=
  ∃ s rest, cs = s ++ rest ∧ IsSign s ∧ (IsValueWord rest ∨ IsUnsigned rest)

variable {s ds fs rest cs : List Char} {c : Char} {negative : Bool}

theorem IsDigits.exists_cons (h : IsDigits ds) : ∃ c cs, ds = c :: cs ∧ c.isDigit = true := by
  obtain ⟨c, cs, rfl⟩ := List.exists_cons_of_ne_nil h.1
  exact ⟨c, cs, rfl, h.2 c List.mem_cons_self⟩

/-- An exponent starts with its letter, so neither digits nor a point go on there. -/
theorem IsExponent.head (h : IsExponent cs) : ∀ c ∈ cs.head?, c.isDigit = false ∧ c ≠ '.' := by
  intro c hc
  cases h with
  | absent => nomatch hc
  | power hletter _ _ =>
    obtain rfl := Option.some.inj hc
    rcases hletter with rfl | rfl <;> decide

/-! ### Reading -/

theorem digits_append (hds : ∀ c ∈ ds, c.isDigit = true)
    (hrest : ∀ c ∈ rest.head?, c.isDigit = false) : digits (ds ++ rest) = (ds, rest) := by
  have htake := takeWhile_isDigit_append hds hrest
  have hsplit := List.takeWhile_append_dropWhile (p := Char.isDigit) (l := ds ++ rest)
  rw [htake] at hsplit
  rw [digits, htake, List.append_cancel_left hsplit]

/-- Every text is digits, perhaps none, and something that does not go on with a digit. -/
theorem exists_digits (cs : List Char) : ∃ ds rest, cs = ds ++ rest ∧
    (∀ c ∈ ds, c.isDigit = true) ∧ ∀ c ∈ rest.head?, c.isDigit = false := by
  refine ⟨_, _, List.takeWhile_append_dropWhile.symm, fun _ => List.mem_takeWhile_imp, ?_⟩
  intro c hc
  have h := List.head?_dropWhile_not Char.isDigit cs
  rw [hc] at h
  simpa using h

theorem not_sign_of_isDigit (hc : c.isDigit = true) :
    ∀ d ∈ (c :: cs).head?, d ≠ '-' ∧ d ≠ '+' := by
  intro d hd
  obtain rfl := Option.some.inj hd
  constructor <;> rintro rfl <;> nomatch hc

theorem sign_of_not_sign (hrest : ∀ c ∈ rest.head?, c ≠ '-' ∧ c ≠ '+') :
    sign rest = (false, rest) := by
  unfold sign
  split
  · exact absurd rfl (hrest _ rfl).1
  · exact absurd rfl (hrest _ rfl).2
  · rfl

/-- A sign is read off a text that has none of its own. -/
theorem sign_append (hs : IsSign s) (hrest : ∀ c ∈ rest.head?, c ≠ '-' ∧ c ≠ '+') :
    ∃ negative, sign (s ++ rest) = (negative, rest) := by
  cases hs with
  | absent => exact ⟨false, sign_of_not_sign hrest⟩
  | minus => exact ⟨true, rfl⟩
  | plus => exact ⟨false, rfl⟩

theorem exists_sign (cs : List Char) :
    ∃ s negative rest, cs = s ++ rest ∧ IsSign s ∧ sign cs = (negative, rest) := by
  unfold sign
  split
  · exact ⟨['-'], _, _, rfl, .minus, rfl⟩
  · exact ⟨['+'], _, _, rfl, .plus, rfl⟩
  · exact ⟨[], _, _, rfl, .absent, rfl⟩

theorem exponent?_isSome_iff : (∃ k, exponent? cs = some k) ↔ IsExponent cs := by
  constructor
  · rintro ⟨k, h⟩
    cases cs with
    | nil => exact .absent
    | cons c cs =>
      obtain ⟨s, negative, ds, rfl, hs, hsign⟩ := exists_sign cs
      simp only [exponent?, hsign, Option.ite_none_right_eq_some, Bool.and_eq_true, Bool.or_eq_true,
        beq_iff_eq, Bool.not_eq_true', List.isEmpty_eq_false_iff, List.all_eq_true] at h
      obtain ⟨⟨⟨hc, hne⟩, hall⟩, -⟩ := h
      exact .power hc hs ⟨hne, hall⟩
  · intro h
    cases h with
    | absent => exact ⟨0, rfl⟩
    | @power c s ds hc hs hds =>
      obtain ⟨d, cs, rfl, hd⟩ := hds.exists_cons
      obtain ⟨negative, hsign⟩ : ∃ negative, sign (s ++ d :: cs) = (negative, d :: cs) :=
        sign_append hs (not_sign_of_isDigit hd)
      have hletter : (c == 'e' || c == 'E') = true := by simpa using hc
      have hall : (d :: cs).all Char.isDigit = true := List.all_eq_true.mpr hds.2
      refine ⟨if negative then -(natOfDigits (d :: cs) : Int) else natOfDigits (d :: cs), ?_⟩
      simp only [exponent?, hsign, hletter, hall]
      rfl

/-- Digits without a point. -/
theorem unsigned?_whole (hds : ∀ c ∈ ds, c.isDigit = true)
    (hrest : ∀ c ∈ rest.head?, c.isDigit = false ∧ c ≠ '.') :
    unsigned? negative (ds ++ rest) = if ds.isEmpty then none
      else (exponent? rest).map fun k => decimal negative (natOfDigits ds) k := by
  have hdigits : digits (ds ++ rest) = (ds, rest) :=
    digits_append hds fun c hc => (hrest c hc).1
  unfold unsigned?
  rw [hdigits]
  dsimp only
  split
  · exact absurd rfl (hrest _ rfl).2
  · simp

/-- Digits with a point. -/
theorem unsigned?_point (hds : ∀ c ∈ ds, c.isDigit = true) (hfs : ∀ c ∈ fs, c.isDigit = true)
    (hrest : ∀ c ∈ rest.head?, c.isDigit = false) :
    unsigned? negative (ds ++ '.' :: (fs ++ rest)) =
      if ds.isEmpty && fs.isEmpty then none
      else (exponent? rest).map fun k =>
        decimal negative (natOfDigits (ds ++ fs)) (k - fs.length) := by
  have hwhole : digits (ds ++ '.' :: (fs ++ rest)) = (ds, '.' :: (fs ++ rest)) :=
    digits_append hds (by simp)
  simp only [unsigned?, hwhole, digits_append hfs hrest]

/-- A text without sign and word is read by the rules. -/
theorem unsigned?_isSome_iff : (∃ n, unsigned? negative cs = some n) ↔ IsUnsigned cs := by
  constructor
  · rintro ⟨n, h⟩
    obtain ⟨ds, rest, rfl, hds, hrest⟩ := exists_digits cs
    by_cases hpoint : ∃ behind, rest = '.' :: behind
    · obtain ⟨behind, rfl⟩ := hpoint
      obtain ⟨fs, e, rfl, hfs, he⟩ := exists_digits behind
      rw [unsigned?_point hds hfs he] at h
      obtain ⟨hne, h⟩ := Option.ite_none_left_eq_some.mp h
      obtain ⟨k, hk, -⟩ := Option.map_eq_some_iff.mp h
      refine ⟨ds ++ '.' :: fs, e, by simp, ?_, exponent?_isSome_iff.mp ⟨k, hk⟩⟩
      -- the digits are in front of the point or behind it
      cases ds with
      | nil => exact .before hds ⟨by simpa using hne, hfs⟩
      | cons d ds => exact .behind ⟨List.cons_ne_nil d ds, hds⟩ hfs
    · have hends : ∀ c ∈ rest.head?, c.isDigit = false ∧ c ≠ '.' := by
        intro c hc
        refine ⟨hrest c hc, ?_⟩
        rintro rfl
        exact hpoint ⟨rest.tail, List.eq_cons_of_mem_head? hc⟩
      rw [unsigned?_whole hds hends] at h
      obtain ⟨hne, h⟩ := Option.ite_none_left_eq_some.mp h
      obtain ⟨k, hk, -⟩ := Option.map_eq_some_iff.mp h
      exact ⟨ds, rest, rfl, .whole ⟨by simpa using hne, hds⟩, exponent?_isSome_iff.mp ⟨k, hk⟩⟩
  · rintro ⟨places, e, rfl, hplaces, he⟩
    obtain ⟨k, hk⟩ := exponent?_isSome_iff.mpr he
    cases hplaces with
    | whole hds =>
      have hne : places.isEmpty = false := by simpa using hds.1
      rw [unsigned?_whole hds.2 he.head, hne, hk]
      exact ⟨_, rfl⟩
    | @behind ds fs hds hfs =>
      have hne : ds.isEmpty = false := by simpa using hds.1
      rw [List.append_assoc, List.cons_append,
        unsigned?_point hds.2 hfs fun c hc => (he.head c hc).1, hne, hk]
      exact ⟨_, rfl⟩
    | @before ds fs hds hfs =>
      have hne : fs.isEmpty = false := by simpa using hfs.1
      rw [List.append_assoc, List.cons_append,
        unsigned?_point hds hfs.2 fun c hc => (he.head c hc).1, hne, Bool.and_false, hk]
      exact ⟨_, rfl⟩

theorem not_sign_of_isValueWord (h : IsValueWord cs) : ∀ c ∈ cs.head?, c ≠ '-' ∧ c ≠ '+' := by
  intro c hc
  rw [List.eq_cons_of_mem_head? hc, IsValueWord, List.map_cons] at h
  constructor <;> rintro rfl <;> exact absurd h (by simp)

theorem not_sign_of_isUnsigned (h : IsUnsigned cs) : ∀ c ∈ cs.head?, c ≠ '-' ∧ c ≠ '+' := by
  obtain ⟨places, e, rfl, hplaces, -⟩ := h
  have hpoint (fs : List Char) : ∀ c ∈ ('.' :: fs).head?, c ≠ '-' ∧ c ≠ '+' := by
    intro c hc
    obtain rfl := Option.some.inj hc
    decide
  cases hplaces with
  | whole hds | behind hds _ =>
    obtain ⟨d, ds, rfl, hd⟩ := hds.exists_cons
    exact not_sign_of_isDigit hd
  | @before ds fs hds _ =>
    cases ds with
    | nil => exact hpoint (fs ++ e)
    | cons d ds => exact not_sign_of_isDigit (hds d List.mem_cons_self)

/-- What stands behind the sign is a word, or is read by its digits. -/
theorem parse?_isSome_of_sign (hsign : sign cs = (negative, rest)) :
    (∃ n, parse? cs = some n) ↔ IsValueWord rest ∨ IsUnsigned rest := by
  have hunsigned : (∃ n, unsigned? negative rest = some n) ↔ IsUnsigned rest :=
    unsigned?_isSome_iff
  rw [← hunsigned]
  simp only [parse?, IsValueWord, hsign, Bool.or_eq_true, decide_eq_true_eq, List.mem_cons,
    List.not_mem_nil, or_false]
  split_ifs with hnan hinfinity
  · exact iff_of_true ⟨_, rfl⟩ (Or.inl (Or.inl hnan))
  · exact iff_of_true ⟨_, rfl⟩ (Or.inl (Or.inr hinfinity))
  · exact (or_iff_right (not_or.mpr ⟨hnan, hinfinity⟩)).symm

/-- Exactly the texts of the grammar are read as numerals. -/
theorem parse?_isSome_iff : (∃ n, parse? cs = some n) ↔ Grammatical cs := by
  constructor
  · intro h
    obtain ⟨s, negative, rest, rfl, hs, hsign⟩ := exists_sign cs
    exact ⟨s, rest, rfl, hs, (parse?_isSome_of_sign hsign).mp h⟩
  · rintro ⟨s, rest, rfl, hs, h⟩
    have hrest : ∀ c ∈ rest.head?, c ≠ '-' ∧ c ≠ '+' :=
      h.elim not_sign_of_isValueWord not_sign_of_isUnsigned
    obtain ⟨negative, hsign⟩ := sign_append hs hrest
    exact (parse?_isSome_of_sign hsign).mpr h

end Numeral

end FormulaCalculus
