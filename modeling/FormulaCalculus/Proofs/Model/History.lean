import FormulaCalculus.Proofs.Model.Reading

/-!
Histories of a model. However a model was used, each variable that it reads has the value that was
last written to it, or zero. A write is refused for a wrong name or a wrong number of values, before
anything is written, and nothing that is read changes a value.
-/

namespace FormulaCalculus

/-- A use of a model: a write of some kind, or a reading. -/
inductive Action (α : Type) where
  | setParameter (name : String) (value : Tensor α)
  | setConstant (name : String) (value : Tensor α)
  | setParameterValues (values : List α)
  /-- A write into the store itself, under any name. -/
  | write (name : String) (value : Tensor α)
  | read (r : Reading α)

namespace Store

variable {α β : Type} {name : β → String} {value : β → Tensor α} {l : List β}

theorem get?_foldl_set_of_not_mem {n : String} (h : n ∉ l.map name) (s : Store α) :
    (l.foldl (fun s b => s.set (name b) (value b)) s).get? n = s.get? n := by
  induction l generalizing s with
  | nil => rfl
  | cons b l ih =>
    obtain ⟨hb, hl⟩ := not_or.mp (mt List.mem_cons.mpr h)
    rw [List.foldl_cons, ih hl, get?_set_of_ne s hb]

/-- Names that are written to have the same values afterwards, whatever they had before. -/
theorem get?_foldl_set_congr {n : String} {s s' : Store α}
    (h : n ∈ l.map name ∨ s.get? n = s'.get? n) :
    (l.foldl (fun s b => s.set (name b) (value b)) s).get? n =
      (l.foldl (fun s b => s.set (name b) (value b)) s').get? n := by
  induction l generalizing s s' with
  | nil => exact h.resolve_left List.not_mem_nil
  | cons b l ih =>
    rw [List.foldl_cons, List.foldl_cons]
    apply ih
    by_cases hn : n = name b
    · rw [hn, get?_set_self, get?_set_self]
      exact Or.inr rfl
    · rw [get?_set_of_ne s hn, get?_set_of_ne s' hn]
      rcases h with h | h
      · exact Or.inl ((List.mem_cons.mp h).resolve_left hn)
      · exact Or.inr h

/-- Of values that are written to different names, each one stays. -/
theorem get?_foldl_set_of_mem (hl : (l.map name).Nodup) {b : β} (hb : b ∈ l) (s : Store α) :
    (l.foldl (fun s b => s.set (name b) (value b)) s).get? (name b) = some (value b) := by
  induction l generalizing s with
  | nil => nomatch hb
  | cons c l ih =>
    obtain ⟨hc, hl⟩ := List.nodup_cons.mp hl
    rw [List.foldl_cons]
    rcases List.mem_cons.mp hb with rfl | hb
    · rw [get?_foldl_set_of_not_mem hc, get?_set_self]
    · exact ih hl hb _

/-- Writes one after the other are all carried out. -/
theorem forM_write (name : β → String) (value : β → Tensor α) (l : List β) (s : Store α) :
    Stateful.answer (l.forM fun b => write (name b) (value b)) s = .ok () ∧
      Stateful.leaves (l.forM fun b => write (name b) (value b)) s =
        l.foldl (fun s b => s.set (name b) (value b)) s :=
  Stateful.forM_of_ok (fun b s => s.write_eq (name b) (value b)) l s

end Store

namespace ModelSpec

theorem firstRepeated_eq_none_iff {seen names : List String} :
    firstRepeated seen names = none ↔ names.Nodup ∧ ∀ n ∈ names, n ∉ seen := by
  induction names generalizing seen with
  | nil => simp [firstRepeated]
  | cons n names ih =>
    rw [firstRepeated, List.nodup_cons, List.forall_mem_cons]
    by_cases hn : n ∈ seen
    · simp [hn]
    · have hcontains : seen.contains n = false := by simpa using hn
      rw [hcontains, if_neg Bool.false_ne_true, ih]
      constructor
      · rintro ⟨hnodup, hseen⟩
        refine ⟨⟨fun hmem => hseen n hmem List.mem_cons_self, hnodup⟩, hn, ?_⟩
        exact fun k hk hmem => hseen k hk (List.mem_cons_of_mem _ hmem)
      · rintro ⟨⟨hmem, hnodup⟩, -, hseen⟩
        refine ⟨hnodup, fun k hk hk' => ?_⟩
        rcases List.mem_cons.mp hk' with rfl | hk'
        · exact hmem hk
        · exact hseen k hk hk'

theorem nodup_of_validate {α : Type} {spec : ModelSpec} (h : spec.validate (α := α) = .ok ()) :
    spec.variableNames.Nodup := by
  simp only [validate] at h
  split at h
  · cases h
  · split at h
    · cases h
    · rename_i hnone
      exact (firstRepeated_eq_none_iff.mp hnone).1

end ModelSpec

namespace Model

variable {α : Type} [Scalar α]

/-- An action as it is carried out on the store of a model. -/
def perform (m : Model α) : Action α → Stateful (Store α) α (Answer α)
  | .setParameter name value => do m.setParameter name value; return .done
  | .setConstant name value => do m.setConstant name value; return .done
  | .setParameterValues values => do m.setParameterValues values; return .done
  | .write name value => do Store.write name value; return .done
  | .read r => Stateful.reading fun s => m.answer s r

/-- The store after a history of actions, the latest first. -/
def storeAfter (m : Model α) : List (Action α) → Store α
  | [] => initialStore m.spec
  | a :: earlier => (m.perform a).leaves (m.storeAfter earlier)

omit [Scalar α] in
/-- `Writes m a name v` holds if the action is a write that a model accepts and that gives the name
the value. -/
inductive Writes (m : Model α) : Action α → String → Tensor α → Prop
  | parameter {name : String} {v : Tensor α} (hname : name ∈ m.spec.parameters) :
      Writes m (.setParameter name v) name v
  | constant {name : String} {v : Tensor α} (hname : name ∈ m.spec.constants) :
      Writes m (.setConstant name v) name v
  | parameterValues {xs : List α} {k : Nat} {name : String} {x : α}
      (hlength : xs.length = m.spec.parameters.length)
      (hname : m.spec.parameters[k]? = some name) (hx : xs[k]? = some x) :
      Writes m (.setParameterValues xs) name (Tensor.singleton x)
  | stored {name : String} {v : Tensor α} : Writes m (.write name v) name v

/-- The value that a name was last given in a history, zero if it never was. -/
inductive LastWritten (m : Model α) (name : String) : List (Action α) → Tensor α → Prop
  | initial : LastWritten m name [] (Tensor.singleton Scalar.zero)
  | written {a : Action α} {v : Tensor α} {earlier : List (Action α)} (h : m.Writes a name v) :
      LastWritten m name (a :: earlier) v
  | kept {a : Action α} {v : Tensor α} {earlier : List (Action α)}
      (h : ∀ w, ¬ m.Writes a name w) (before : LastWritten m name earlier v) :
      LastWritten m name (a :: earlier) v

variable {m : Model α} {s : Store α} {a : Action α} {name : String} {v : Tensor α}

/-! ### The writes of a model -/

section

variable {names : List String} {refusal : String → InvalidInput}

omit [Scalar α] in
theorem setAmong_of_mem (hname : name ∈ names) (s : Store α) :
    (setAmong names refusal name v).answer s = .ok () ∧
      (setAmong names refusal name v).leaves s = s.set name v := by
  rw [setAmong, Stateful.require_bind hname]
  exact s.write_eq name v

omit [Scalar α] in
theorem setAmong_eq_error_iff {e : Error α} :
    (setAmong names refusal name v).answer s = .error e ↔
      name ∉ names ∧ e = .invalidInput (refusal name) := by
  by_cases hname : name ∈ names
  · simp [(setAmong_of_mem hname s).1, hname]
  · have hrefused := (Stateful.require_bind_of_not hname (.invalidInput (refusal name))
      (fun _ => Store.write name v) s).1
    rw [setAmong, hrefused]
    simp [hname, eq_comm]

omit [Scalar α] in
/-- Nothing is written under a name that is refused. -/
theorem atomic_setAmong : (setAmong names refusal name v).Atomic :=
  Stateful.atomic_require_bind _ _ fun _ s => ⟨(), (s.write_eq name v).1⟩

omit [Scalar α] in
theorem get?_setAmong_self (hname : name ∈ names) (s : Store α) :
    ((setAmong names refusal name v).leaves s).get? name = some v := by
  rw [(setAmong_of_mem hname s).2]
  exact s.get?_set_self name v

omit [Scalar α] in
theorem get?_setAmong_of_not {other : String} (h : name = other → name ∉ names) (s : Store α) :
    ((setAmong names refusal name v).leaves s).get? other = s.get? other := by
  by_cases hname : name ∈ names
  · rw [(setAmong_of_mem hname s).2]
    exact s.get?_set_of_ne (fun heq => h heq.symm hname) v
  · rw [atomic_setAmong s _ (setAmong_eq_error_iff.mpr ⟨hname, rfl⟩)]

end

omit [Scalar α] in
/-- As many values as there are parameters are written name by name. -/
theorem setParameterValues_of_length {xs : List α} (hxs : xs.length = m.parameterCount)
    (s : Store α) :
    (m.setParameterValues xs).answer s = .ok () ∧ (m.setParameterValues xs).leaves s =
      (m.spec.parameters.zip xs).foldl (fun s b => s.set b.1 (Tensor.singleton b.2)) s := by
  rw [setParameterValues, Stateful.require_bind hxs]
  exact Store.forM_write Prod.fst (fun b => Tensor.singleton b.2) _ s

omit [Scalar α] in
theorem setParameterValues_eq_error_iff {xs : List α} {e : Error α} :
    (m.setParameterValues xs).answer s = .error e ↔ xs.length ≠ m.parameterCount ∧
      e = .dimensionMismatch (.parameterValues m.parameterCount xs.length) := by
  by_cases hlength : xs.length = m.parameterCount
  · simp [(setParameterValues_of_length hlength s).1, hlength]
  · rw [setParameterValues, (Stateful.require_bind_of_not hlength _ _ s).1]
    simp [hlength, eq_comm]

omit [Scalar α] in
/-- No value is written if there are too few or too many. -/
theorem atomic_setParameterValues (xs : List α) : (m.setParameterValues xs).Atomic :=
  Stateful.atomic_require_bind _ _ fun _ s =>
    ⟨(), (Store.forM_write Prod.fst (fun b => Tensor.singleton b.2) _ s).1⟩

omit [Scalar α] in
/-- Each parameter is given its own value, and no other name is touched. -/
theorem get?_setParameterValues {xs : List α} (hxs : xs.length = m.parameterCount)
    (s : Store α) :
    (∀ name, name ∉ m.spec.parameters →
        ((m.setParameterValues xs).leaves s).get? name = s.get? name) ∧
      (m.spec.parameters.Nodup → ∀ (k : Nat) (name : String) (x : α),
        m.spec.parameters[k]? = some name → xs[k]? = some x →
          ((m.setParameterValues xs).leaves s).get? name = some (Tensor.singleton x)) := by
  have hnames : (m.spec.parameters.zip xs).map Prod.fst = m.spec.parameters :=
    List.map_fst_zip (Nat.le_of_eq hxs.symm)
  rw [(setParameterValues_of_length hxs s).2]
  constructor
  · intro name hname
    rw [← hnames] at hname
    exact Store.get?_foldl_set_of_not_mem hname s
  · intro hnodup k name x hname hx
    rw [← hnames] at hnodup
    have hmem : (name, x) ∈ m.spec.parameters.zip xs :=
      List.mem_of_getElem? (List.getElem?_zip_eq_some.mpr ⟨hname, hx⟩)
    exact Store.get?_foldl_set_of_mem hnodup hmem s

/-! ### One action -/

/-- A write that is accepted gives the name its value. -/
theorem perform_of_writes (hm : m.spec.parameters.Nodup) (h : m.Writes a name v) (s : Store α) :
    (m.perform a).answer s = .ok .done ∧ ((m.perform a).leaves s).get? name = some v := by
  have hdone {x : Stateful (Store α) α Unit} (hx : x.answer s = .ok ())
      (hget : (x.leaves s).get? name = some v) :
      Stateful.answer (do x; return (Answer.done : Answer α)) s = .ok .done ∧
        (Stateful.leaves (do x; return (Answer.done : Answer α)) s).get? name = some v := by
    obtain ⟨hanswer, hleaves⟩ := Stateful.bind_pure_eq x (Answer.done : Answer α) s
    rw [hanswer, hleaves, hx]
    exact ⟨rfl, hget⟩
  cases h with
  | parameter hname => exact hdone (setAmong_of_mem hname s).1 (get?_setAmong_self hname s)
  | constant hname => exact hdone (setAmong_of_mem hname s).1 (get?_setAmong_self hname s)
  | parameterValues hlength hname hx =>
    have hget := (get?_setParameterValues (m := m) hlength s).2 hm _ _ _ hname hx
    exact hdone (setParameterValues_of_length hlength s).1 hget
  | stored => exact hdone (s.write_eq name v).1 (s.get?_set_self name v)

/-- Every other action leaves the name its value. -/
theorem get?_perform_of_not_writes (h : ∀ v, ¬ m.Writes a name v) (s : Store α) :
    ((m.perform a).leaves s).get? name = s.get? name := by
  have hdone (x : Stateful (Store α) α Unit) :
      Stateful.leaves (do x; return (Answer.done : Answer α)) s = x.leaves s :=
    (Stateful.bind_pure_eq x Answer.done s).2
  cases a with
  | setParameter other v =>
    rw [perform, hdone]
    apply get?_setAmong_of_not
    rintro rfl hname
    exact h v (.parameter hname)
  | setConstant other v =>
    rw [perform, hdone]
    apply get?_setAmong_of_not
    rintro rfl hname
    exact h v (.constant hname)
  | setParameterValues xs =>
    rw [perform, hdone]
    by_cases hlength : xs.length = m.parameterCount
    · apply (get?_setParameterValues hlength s).1
      intro hname
      obtain ⟨k, hk, rfl⟩ := List.getElem_of_mem hname
      have hkx : k < xs.length := by
        rw [hlength]
        exact hk
      exact h _ (.parameterValues hlength (List.getElem?_eq_getElem hk)
        (List.getElem?_eq_getElem hkx))
    · rw [atomic_setParameterValues xs s _
        (setParameterValues_eq_error_iff.mpr ⟨hlength, rfl⟩)]
  | write other v =>
    rw [perform, hdone, (s.write_eq other v).2]
    apply s.get?_set_of_ne
    rintro rfl
    exact h v .stored
  | read r => rw [perform, (Stateful.reading_eq _ s).2]

/-- An action that is refused has changed nothing. -/
theorem atomic_perform (m : Model α) (a : Action α) : (m.perform a).Atomic := by
  cases a with
  | setParameter name v => exact atomic_setAmong.bind_pure _
  | setConstant name v => exact atomic_setAmong.bind_pure _
  | setParameterValues xs => exact (atomic_setParameterValues xs).bind_pure _
  | write name v =>
    intro s e he
    nomatch Stateful.bind_pure_eq_error_iff.mp he
  | read r => exact Stateful.atomic_reading _

/-! ### Histories -/

theorem get?_initialStore {spec : ModelSpec} (hspec : spec.variableNames.Nodup)
    (hname : name ∈ spec.variableNames) :
    (initialStore spec : Store α).get? name = some (Tensor.singleton Scalar.zero) := by
  have hnames : (spec.variableNames.map id).Nodup := by
    rwa [List.map_id]
  exact Store.get?_foldl_set_of_mem hnames hname Store.empty

/-- After every history a declared variable has a value, the last one that was written. -/
theorem exists_lastWritten (hm : m.spec.variableNames.Nodup)
    (hname : name ∈ m.spec.variableNames) (history : List (Action α)) :
    ∃ v, (m.storeAfter history).get? name = some v ∧
      ∀ w, m.LastWritten name history w ↔ w = v := by
  induction history with
  | nil =>
    refine ⟨Tensor.singleton Scalar.zero, ?_, fun w => ⟨?_, ?_⟩⟩
    · exact get?_initialStore hm hname
    · rintro ⟨⟩
      rfl
    · rintro rfl
      exact .initial
  | cons a earlier ih =>
    by_cases hwrites : ∃ v, m.Writes a name v
    · obtain ⟨v, hv⟩ := hwrites
      have hparameters : m.spec.parameters.Nodup := (List.nodup_append.mp hm).1
      have hgives {w : Tensor α} (hw : m.Writes a name w) :=
        (perform_of_writes hparameters hw (m.storeAfter earlier)).2
      refine ⟨v, hgives hv, fun w => ⟨?_, ?_⟩⟩
      · intro hw
        cases hw with
        | written h => exact Option.some.inj ((hgives h).symm.trans (hgives hv))
        | kept h before => exact absurd hv (h v)
      · rintro rfl
        exact .written hv
    · have hnone := not_exists.mp hwrites
      obtain ⟨v, hget, hlast⟩ := ih
      refine ⟨v, (get?_perform_of_not_writes hnone _).trans hget, fun w => ⟨?_, ?_⟩⟩
      · intro hw
        cases hw with
        | written h => exact absurd h (hnone w)
        | kept h before => exact (hlast w).mp before
      · intro hw
        exact .kept hnone ((hlast w).mpr hw)

theorem lastWritten_iff_read_eq (hm : m.spec.variableNames.Nodup)
    (hname : name ∈ m.spec.variableNames) (history : List (Action α)) :
    m.LastWritten name history v ↔ (m.storeAfter history).read name = v := by
  obtain ⟨w, hget, hlast⟩ := exists_lastWritten hm hname history
  have hread : (m.storeAfter history).read name = w := by
    rw [Store.read, hget]
    rfl
  rw [hlast, hread, eq_comm]

/-- Whether the variables of a model behave as memory: the formulas read what was last written, and
only accepted writes change anything. -/
structure Remembers (m : Model α) : Prop where
  reads : ∀ history, ∀ e ∈ m.formulas, ∀ p ∈ e.root.bindings, p.2 = p.1 ∧
    p.1 ∈ m.spec.variableNames ∧
      ∀ v, m.LastWritten p.1 history v ↔ (m.storeAfter history).read p.2 = v
  answers : ∀ history s, (∀ name ∈ m.spec.variableNames, m.LastWritten name history (s.read name)) →
    ∀ r, m.answer (m.storeAfter history) r = m.answer s r
  accepted : ∀ s a name v, m.Writes a name v → (m.perform a).answer s = .ok .done
  setParameter_refused : ∀ s name v e, (m.perform (.setParameter name v)).answer s = .error e ↔
    name ∉ m.spec.parameters ∧ e = .invalidInput (.notAParameter name)
  setConstant_refused : ∀ s name v e, (m.perform (.setConstant name v)).answer s = .error e ↔
    name ∉ m.spec.constants ∧ e = .invalidInput (.notAConstant name)
  setParameterValues_refused : ∀ s xs e,
    (m.perform (.setParameterValues xs)).answer s = .error e ↔ xs.length ≠ m.parameterCount ∧
      e = .dimensionMismatch (.parameterValues m.parameterCount xs.length)
  refused_keeps : ∀ s a e, (m.perform a).answer s = .error e → (m.perform a).leaves s = s
  reading_keeps : ∀ s r, (m.perform (.read r)).leaves s = s
  setParameterValues_gives : ∀ s (xs : List α), xs.length = m.parameterCount →
    ∀ (k : Nat) (name : String) (x : α), m.spec.parameters[k]? = some name → xs[k]? = some x →
      ((m.perform (.setParameterValues xs)).leaves s).get? name = some (Tensor.singleton x)
  setParameterValues_keeps : ∀ s xs name, name ∉ m.spec.parameters →
    ((m.perform (.setParameterValues xs)).leaves s).get? name = s.get? name

/-- The variables of a compiled model behave as memory. -/
theorem remembers_of_compile [DecimalText α] {spec : ModelSpec} (h : compile spec = .ok m) :
    m.spec = spec ∧ m.Remembers := by
  have hspec := spec_of_compile h
  have hnames : m.spec.variableNames.Nodup := by
    obtain ⟨_, hvalid, -⟩ := exists_of_bind_eq_ok h
    rw [hspec]
    exact ModelSpec.nodup_of_validate hvalid
  have hparameters : m.spec.parameters.Nodup := (List.nodup_append.mp hnames).1
  have hdeclared := readsDeclared_of_compile h
  rw [← hspec] at hdeclared
  refine ⟨hspec, ?_⟩
  exact {
    reads := by
      intro history e he p hp
      obtain ⟨hkey, hname⟩ := hdeclared e he p hp
      refine ⟨hkey, hname, fun v => ?_⟩
      rw [hkey]
      exact lastWritten_iff_read_eq hnames hname history
    answers := by
      intro history s hs r
      refine SameReads.answer ?_ r
      intro e he p hp
      obtain ⟨hkey, hname⟩ := hdeclared e he p hp
      rw [hkey]
      exact (lastWritten_iff_read_eq hnames hname history).mp (hs p.1 hname)
    accepted := fun s a name v hwrites => (perform_of_writes hparameters hwrites s).1
    setParameter_refused := fun s name v e =>
      Stateful.bind_pure_eq_error_iff.trans setAmong_eq_error_iff
    setConstant_refused := fun s name v e =>
      Stateful.bind_pure_eq_error_iff.trans setAmong_eq_error_iff
    setParameterValues_refused := fun s xs e =>
      Stateful.bind_pure_eq_error_iff.trans setParameterValues_eq_error_iff
    refused_keeps := fun s a e => atomic_perform m a s e
    reading_keeps := fun s r => (Stateful.reading_eq _ s).2
    setParameterValues_gives := fun s xs hlength k name x hname hx =>
      (perform_of_writes hparameters (.parameterValues hlength hname hx) s).2
    setParameterValues_keeps := by
      intro s xs name hname
      apply get?_perform_of_not_writes
      intro v hv
      cases hv with
      | parameterValues hlength hk hx => exact hname (List.mem_of_getElem? hk) }

/-- A reading and a refused write behind the last writes to two variables. -/
theorem remembers_of_compile_product :
    ∃ m : Model Double, compile ⟨"x*y", ["x"], ["y"], none, none⟩ = .ok m ∧
      let y : Tensor Double := .replicate [2] Scalar.two
      let history : List (Action Double) := [.read .values,
        .setParameter "y" (.replicate [3] Scalar.one), .setConstant "y" y,
        .setParameterValues [Scalar.one]]
      (m.storeAfter history).read "y" = y ∧
        (m.storeAfter history).read "x" = .singleton Scalar.one := by
  obtain ⟨m, hm, hbindings⟩ : ∃ m : Model Double,
      compile ⟨"x*y", ["x"], ["y"], none, none⟩ = .ok m ∧
        m.value.root.bindings = [("x", "x"), ("y", "y")] := ⟨_, rfl, rfl⟩
  obtain ⟨hspec, hremembers⟩ := remembers_of_compile hm
  refine ⟨m, hm, ?_⟩
  intro y history
  have hreads := hremembers.reads history m.value List.mem_cons_self
  rw [hbindings] at hreads
  have hrefused {v w : Tensor Double} {name : String} :
      ¬ m.Writes (.setParameter "y" v) name w := by
    rintro ⟨hname⟩
    rw [hspec] at hname
    simp at hname
  constructor
  · apply ((hreads ("y", "y") (by simp)).2.2 y).mp
    refine .kept (fun w hw => nomatch hw) (.kept (fun w => hrefused) (.written (.constant ?_)))
    rw [hspec]
    exact List.mem_singleton.mpr rfl
  · apply ((hreads ("x", "x") (by simp)).2.2 _).mp
    refine .kept (fun w hw => nomatch hw) (.kept (fun w => hrefused) (.kept ?_ (.written ?_)))
    · intro w hw
      generalize hname : "x" = name at hw
      cases hw
      exact absurd hname (by decide)
    · apply Writes.parameterValues (k := 0)
      · rw [hspec]
        rfl
      · rw [hspec]
        rfl
      · rfl

end Model

end FormulaCalculus
