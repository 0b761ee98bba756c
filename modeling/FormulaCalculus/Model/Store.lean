import FormulaCalculus.Stateful

/-!
The current values of the variables of a model.
-/

namespace FormulaCalculus

/-- Variable names with their values. -/
structure Store (α : Type) where
  entries : List (String × Tensor α)

namespace Store

variable {α : Type}

def empty : Store α := ⟨[]⟩

/-- The value last written to a name. -/
def get? (s : Store α) (name : String) : Option (Tensor α) :=
  (s.entries.find? fun e => e.1 == name).map Prod.snd

/-- The store after a value is written to a name. -/
def set (name : String) (value : Tensor α) (s : Store α) : Store α :=
  ⟨(name, value) :: s.entries.filter fun e => e.1 != name⟩

theorem get?_set_self (s : Store α) (name : String) (value : Tensor α) :
    (s.set name value).get? name = some value := by
  simp [get?, set]

theorem get?_set_of_ne (s : Store α) {name other : String} (h : other ≠ name) (value : Tensor α) :
    (s.set name value).get? other = s.get? other := by
  have hfilter (l : List (String × Tensor α)) :
      (l.filter fun e => e.1 != name).find? (fun e => e.1 == other) =
        l.find? fun e => e.1 == other := by
    induction l with
    | nil => rfl
    | cons e l ih => by_cases he : e.1 = name <;> by_cases ho : e.1 = other <;> simp_all
  simp [get?, set, Ne.symm h, hfilter]

/-- Writes a value to a name, whatever the name is. -/
def write (name : String) (value : Tensor α) : Stateful (Store α) α Unit := modify (set name value)

theorem write_eq (name : String) (value : Tensor α) (s : Store α) :
    (write name value).answer s = .ok () ∧ (write name value).leaves s = s.set name value :=
  ⟨rfl, rfl⟩

/-- The value of a name as a formula reads it: a name that was never written reads as the value
that is not a number. -/
def read [Scalar α] (s : Store α) (name : String) : Tensor α :=
  (s.get? name).getD (Tensor.singleton Scalar.nan)

end Store

end FormulaCalculus
