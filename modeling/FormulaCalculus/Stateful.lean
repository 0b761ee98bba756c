import FormulaCalculus.Error

/-!
Calculations that may fail and may change a state. What a calculation has changed stays changed when
it fails, and what stands behind the failure is not carried out.
-/

namespace FormulaCalculus

/-- A calculation that may fail and may change a state of type `σ`. -/
abbrev Stateful (σ α : Type) := ExceptT (Error α) (StateM σ)

namespace Stateful

variable {σ α β γ : Type}

/-- Goes on if a condition holds. -/
def require (p : Prop) [Decidable p] (e : Error α) : Stateful σ α Unit :=
  if p then return () else throw e

/-- What is read off the current state. -/
def reading (g : σ → Except (Error α) β) : Stateful σ α β := do
  match g (← get) with
  | .ok b => return b
  | .error e => throw e

/-- The answer of a calculation that starts in a state. -/
def answer (x : Stateful σ α β) (s : σ) : Except (Error α) β := (x.run.run s).1

/-- The state that a calculation leaves. -/
def leaves (x : Stateful σ α β) (s : σ) : σ := (x.run.run s).2

/-! ### One calculation behind another -/

theorem bind_of_ok {x : Stateful σ α β} {s : σ} {b : β} (h : answer x s = .ok b)
    (f : β → Stateful σ α γ) :
    answer (x >>= f) s = answer (f b) (leaves x s) ∧
      leaves (x >>= f) s = leaves (f b) (leaves x s) := by
  have hrun : x.run.run s = (.ok b, leaves x s) := Prod.ext h rfl
  have hbind : (x >>= f).run.run s = (f b).run.run (leaves x s) := by
    rw [ExceptT.run_bind, StateT.run_bind, hrun]
    rfl
  exact ⟨congrArg Prod.fst hbind, congrArg Prod.snd hbind⟩

/-- What follows a calculation that fails is not carried out. -/
theorem bind_of_error {x : Stateful σ α β} {s : σ} {e : Error α} (h : answer x s = .error e)
    (f : β → Stateful σ α γ) :
    answer (x >>= f) s = .error e ∧ leaves (x >>= f) s = leaves x s := by
  have hrun : x.run.run s = (.error e, leaves x s) := Prod.ext h rfl
  have hbind : (x >>= f).run.run s = (.error e, leaves x s) := by
    rw [ExceptT.run_bind, StateT.run_bind, hrun]
    rfl
  exact ⟨congrArg Prod.fst hbind, congrArg Prod.snd hbind⟩

/-- An answer that is given in place of the calculation's own. -/
theorem bind_pure_eq (x : Stateful σ α β) (c : γ) (s : σ) :
    answer (x >>= fun _ => pure c) s = (answer x s).map (fun _ => c) ∧
      leaves (x >>= fun _ => pure c) s = leaves x s := by
  cases h : answer x s with
  | ok b => exact bind_of_ok h _
  | error e => exact bind_of_error h _

theorem bind_pure_eq_error_iff {x : Stateful σ α β} {c : γ} {s : σ} {e : Error α} :
    answer (x >>= fun _ => pure c) s = .error e ↔ answer x s = .error e := by
  rw [(bind_pure_eq x c s).1]
  cases answer x s <;> simp [Except.map]

/-- Steps that do not fail are all carried out, each in the state that the one before leaves. -/
theorem forM_of_ok {f : β → Stateful σ α Unit} {step : σ → β → σ}
    (hf : ∀ b s, answer (f b) s = .ok () ∧ leaves (f b) s = step s b) (l : List β) (s : σ) :
    answer (l.forM f) s = .ok () ∧ leaves (l.forM f) s = l.foldl step s := by
  induction l generalizing s with
  | nil => exact ⟨rfl, rfl⟩
  | cons b l ih =>
    obtain ⟨hanswer, hleaves⟩ := hf b s
    obtain ⟨hfirst, hsecond⟩ := bind_of_ok hanswer fun _ => l.forM f
    rw [hleaves] at hfirst hsecond
    exact ⟨hfirst.trans (ih _).1, hsecond.trans (ih _).2⟩

/-! ### Conditions and readings -/

theorem require_bind {p : Prop} [Decidable p] (h : p) (e : Error α)
    (f : Unit → Stateful σ α β) : (require p e >>= f) = f () := by
  rw [require, if_pos h]
  rfl

/-- Where a condition is not met, nothing has happened yet. -/
theorem require_bind_of_not {p : Prop} [Decidable p] (h : ¬ p) (e : Error α)
    (f : Unit → Stateful σ α β) (s : σ) :
    answer (require p e >>= f) s = .error e ∧ leaves (require p e >>= f) s = s := by
  rw [require, if_neg h]
  exact ⟨rfl, rfl⟩

theorem reading_eq (g : σ → Except (Error α) β) (s : σ) :
    answer (reading g) s = g s ∧ leaves (reading g) s = s := by
  have hget : answer (get : Stateful σ α σ) s = .ok s := rfl
  unfold reading
  rw [(bind_of_ok hget _).1, (bind_of_ok hget _).2]
  cases g s with
  | ok b => exact ⟨rfl, rfl⟩
  | error e => exact ⟨rfl, rfl⟩

/-- Whether a calculation that fails leaves the state as it was. -/
def Atomic (x : Stateful σ α β) : Prop := ∀ s e, answer x s = .error e → leaves x s = s

/-- What can no longer fail once a condition holds changes nothing if the condition does not. -/
theorem atomic_require_bind (p : Prop) [Decidable p] (e : Error α) {f : Unit → Stateful σ α β}
    (hf : p → ∀ s, ∃ b, answer (f ()) s = .ok b) : Atomic (require p e >>= f) := by
  intro s d hd
  by_cases h : p
  · obtain ⟨b, hb⟩ := hf h s
    rw [require_bind h, hb] at hd
    nomatch hd
  · exact (require_bind_of_not h e f s).2

theorem atomic_reading (g : σ → Except (Error α) β) : Atomic (reading g) :=
  fun s _ _ => (reading_eq g s).2

theorem Atomic.bind_pure {x : Stateful σ α β} (hx : Atomic x) (c : γ) :
    Atomic (x >>= fun _ => pure c) := by
  intro s e he
  rw [(bind_pure_eq x c s).2]
  exact hx s e (bind_pure_eq_error_iff.mp he)

end Stateful

end FormulaCalculus
