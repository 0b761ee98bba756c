import FormulaCalculus.Proofs.Postfix.Machine

/-!
The steps of the reordering as a relation, with one rule for each thing that can happen. A step
looks at the top of the stack only as far as the first token it leaves there, so it is the same over
a taller stack; and it makes up no tokens.
-/

namespace FormulaCalculus

namespace Token

variable {α : Type}

/-- The least precedence of the operators that an operator moves to the output. -/
def threshold? : Token α → Option Int
  | unaryOperator op => some (Shunting.threshold op.precedence op.leftAssociative)
  | binaryOperator op => some (Shunting.threshold op.precedence op.leftAssociative)
  | _ => none

theorem isOperator_of_threshold? {t : Token α} {n : Int} (h : t.threshold? = some n) :
    t.isOperator = true := by
  cases t <;> first | rfl | simp [threshold?] at h

theorem exists_threshold? {t : Token α} (h : t.isOperator = true) :
    ∃ n, t.threshold? = some n := by
  cases t <;> first | exact ⟨_, rfl⟩ | simp [isOperator] at h

/-- An operator of precedence at least `m` moves only operators of precedence at least `m`. -/
theorem le_threshold? {t : Token α} {m n : Int} (h : t.threshold? = some n)
    (ht : Shunting.Reaches m t) : m ≤ n := by
  obtain ⟨p, hp, hm⟩ := ht
  have hle (q : Int) (left : Bool) : q ≤ Shunting.threshold q left := by
    unfold Shunting.threshold
    split <;> omega
  cases t with
  | unaryOperator op | binaryOperator op =>
    obtain rfl := Option.some.inj h
    obtain rfl := Option.some.inj hp
    exact Int.le_trans hm (hle _ _)
  | _ => simp [threshold?] at h

end Token

namespace Shunting

variable {α : Type}

theorem splitOperators_eq_ok_iff {p : Int} {left : Bool} {k a b : List (Token α)} :
    splitOperators p left k = .ok (a, b) ↔
      k = a ++ b ∧ (∀ t ∈ a, Reaches (threshold p left) t) ∧ Rests (threshold p left) b := by
  constructor
  · intro h
    induction k generalizing a with
    | nil =>
      obtain ⟨rfl, rfl⟩ := Prod.mk.inj (Except.ok.inj h)
      exact ⟨rfl, by simp, trivial⟩
    | cons t k ih =>
      by_cases ht : Reaches (threshold p left) t
      · rw [splitOperators_cons ht] at h
        cases hrest : splitOperators p left k with
        | error e => simp [hrest, Except.map] at h
        | ok s =>
          obtain ⟨a', b'⟩ := s
          simp only [hrest, Except.map, Except.ok.injEq, Prod.mk.injEq] at h
          obtain ⟨rfl, rfl⟩ := h
          obtain ⟨rfl, ha, hb⟩ := ih hrest
          exact ⟨rfl, List.forall_mem_cons.mpr ⟨ht, ha⟩, hb⟩
      · have hrests : Rests (threshold p left) (t :: k) := by
          by_contra hmoves
          cases t with
          | leftParen => exact hmoves (Or.inl rfl)
          | unaryOperator op | binaryOperator op =>
            refine hmoves (Or.inr ⟨op.precedence, rfl, ?_⟩)
            by_contra hlt
            exact ht ⟨op.precedence, rfl, by omega⟩
          | _ => simp [splitOperators, Token.precedence?] at h
        rw [splitOperators_of_rests hrests] at h
        obtain ⟨rfl, rfl⟩ := Prod.mk.inj (Except.ok.inj h)
        exact ⟨rfl, by simp, hrests⟩
  · rintro ⟨rfl, ha, hb⟩
    exact splitOperators_append ha hb

theorem splitParen_eq_ok_iff {k a b : List (Token α)} :
    splitParen k = .ok (a, b) ↔ k = a ++ .leftParen :: b ∧ ∀ t ∈ a, t ≠ .leftParen := by
  constructor
  · intro h
    induction k generalizing a with
    | nil => simp [splitParen] at h
    | cons t k ih =>
      by_cases ht : t = .leftParen
      · subst ht
        obtain ⟨rfl, rfl⟩ := Prod.mk.inj (Except.ok.inj h)
        exact ⟨rfl, by simp⟩
      · have hcons : splitParen (t :: k) = (splitParen k).map fun s => (t :: s.1, s.2) := by
          cases t <;>
            first
            | exact absurd rfl ht
            | (simp only [splitParen]; cases splitParen k <;> rfl)
        rw [hcons] at h
        cases hrest : splitParen k with
        | error e => simp [hrest, Except.map] at h
        | ok s =>
          obtain ⟨a', b'⟩ := s
          simp only [hrest, Except.map, Except.ok.injEq, Prod.mk.injEq] at h
          obtain ⟨rfl, rfl⟩ := h
          obtain ⟨rfl, ha⟩ := ih hrest
          exact ⟨rfl, List.forall_mem_cons.mpr ⟨ht, ha⟩⟩
  · rintro ⟨rfl, ha⟩
    induction a with
    | nil => rfl
    | cons t a ih =>
      obtain ⟨ht, ha⟩ := List.forall_mem_cons.mp ha
      have hrest := ih ha
      cases t <;>
        first
        | exact absurd rfl ht
        | (simp only [List.cons_append, splitParen, hrest]; rfl)

/-- Whether no function stands on top of a stack. -/
def NoCall (k : List (Token α)) : Prop := ∀ f rest, k ≠ .function f :: rest

/-- One step from a state to the next, at a token. -/
inductive Steps : Shunting α → Token α → Shunting α → Prop
  | operand {o k : List (Token α)} {t : Token α} (ht : t.isOperand = true) :
      Steps ⟨o, k⟩ t ⟨o ++ [t], k⟩
  | opening {o k : List (Token α)} : Steps ⟨o, k⟩ .leftParen ⟨o, .leftParen :: k⟩
  | name {o k : List (Token α)} {f : Function} : Steps ⟨o, k⟩ (.function f) ⟨o, .function f :: k⟩
  | operator {o a b : List (Token α)} {t : Token α} {n : Int} (ht : t.threshold? = some n)
      (ha : ∀ u ∈ a, Reaches n u) (hb : Rests n b) : Steps ⟨o, a ++ b⟩ t ⟨o ++ a, t :: b⟩
  | closing {o a b : List (Token α)} (ha : ∀ t ∈ a, t ≠ .leftParen) (hb : NoCall b) :
      Steps ⟨o, a ++ .leftParen :: b⟩ .rightParen ⟨o ++ a, b⟩
  | closingCall {o a b : List (Token α)} {f : Function} (ha : ∀ t ∈ a, t ≠ .leftParen) :
      Steps ⟨o, a ++ .leftParen :: .function f :: b⟩ .rightParen ⟨o ++ a ++ [.function f], b⟩
  | comma {s : Shunting α} : Steps s .comma s

theorem pushOperator_eq_ok_iff {s s' : Shunting α} {t : Token α} {p : Int} {left : Bool} :
    s.pushOperator t p left = .ok s' ↔ ∃ a b, s.stack = a ++ b ∧
      (∀ u ∈ a, Reaches (threshold p left) u) ∧ Rests (threshold p left) b ∧
      s' = ⟨s.output ++ a, t :: b⟩ := by
  unfold pushOperator
  constructor
  · intro h
    obtain ⟨⟨a, b⟩, hsplit, h⟩ := exists_of_bind_eq_ok h
    obtain ⟨hk, ha, hb⟩ := splitOperators_eq_ok_iff.mp hsplit
    exact ⟨a, b, hk, ha, hb, (Except.ok.inj h).symm⟩
  · rintro ⟨a, b, hk, ha, hb, rfl⟩
    simp [splitOperators_eq_ok_iff.mpr ⟨hk, ha, hb⟩, bind, Except.bind, pure, Except.pure]

theorem closeParen_eq_ok_iff {s s' : Shunting α} :
    s.closeParen = .ok s' ↔ Steps s .rightParen s' := by
  obtain ⟨o, k⟩ := s
  unfold closeParen
  constructor
  · intro h
    obtain ⟨⟨a, b⟩, hsplit, h⟩ := exists_of_bind_eq_ok h
    obtain ⟨rfl, ha⟩ := splitParen_eq_ok_iff.mp hsplit
    dsimp only at h
    split at h
    · obtain rfl := Except.ok.inj h
      exact .closingCall ha
    · rename_i hcall
      obtain rfl := Except.ok.inj h
      exact .closing ha hcall
  · intro h
    cases h with
    | operand ht => simp [Token.isOperand] at ht
    | operator ht => simp [Token.threshold?] at ht
    | closing ha hb =>
      simp only [splitParen_eq_ok_iff.mpr ⟨rfl, ha⟩, bind, Except.bind, pure, Except.pure]
      split
      · rename_i f rest
        exact absurd rfl (hb f rest)
      · rfl
    | closingCall ha =>
      simp only [splitParen_eq_ok_iff.mpr ⟨rfl, ha⟩, bind, Except.bind, pure, Except.pure]

theorem step_eq_ok_iff {s s' : Shunting α} {t : Token α} : s.step t = .ok s' ↔ Steps s t s' := by
  cases t with
  | start =>
    refine ⟨fun h => by simp [step] at h, fun h => ?_⟩
    cases h with
    | operand ht => simp [Token.isOperand] at ht
    | operator ht => simp [Token.threshold?] at ht
  | leftParen =>
    refine ⟨fun h => Except.ok.inj h ▸ .opening, fun h => ?_⟩
    cases h with
    | operand ht => simp [Token.isOperand] at ht
    | operator ht => simp [Token.threshold?] at ht
    | opening => rfl
  | rightParen => exact closeParen_eq_ok_iff
  | comma =>
    refine ⟨fun h => Except.ok.inj h ▸ .comma, fun h => ?_⟩
    cases h with
    | operand ht => simp [Token.isOperand] at ht
    | operator ht => simp [Token.threshold?] at ht
    | comma => rfl
  | constant _ | variableName _ =>
    refine ⟨fun h => Except.ok.inj h ▸ .operand rfl, fun h => ?_⟩
    cases h with
    | operand => rfl
    | operator ht => simp [Token.threshold?] at ht
  | unaryOperator _ | binaryOperator _ =>
    refine pushOperator_eq_ok_iff.trans ⟨?_, fun h => ?_⟩
    · obtain ⟨o, k⟩ := s
      rintro ⟨a, b, rfl, ha, hb, rfl⟩
      exact .operator rfl ha hb
    · cases h with
      | operand ht => simp [Token.isOperand] at ht
      | operator ht ha hb =>
        obtain rfl := Option.some.inj ht
        exact ⟨_, _, rfl, ha, hb, rfl⟩
  | function _ =>
    refine ⟨fun h => Except.ok.inj h ▸ .name, fun h => ?_⟩
    cases h with
    | operand ht => simp [Token.isOperand] at ht
    | operator ht => simp [Token.threshold?] at ht
    | name => rfl

theorem run_cons_eq_ok_iff {s s' : Shunting α} {t : Token α} {ts : List (Token α)} :
    s.run (t :: ts) = .ok s' ↔ ∃ s₁, Steps s t s₁ ∧ s₁.run ts = .ok s' := by
  rw [run_cons]
  constructor
  · intro h
    cases hstep : s.step t with
    | error e => simp [hstep, Except.bind] at h
    | ok s₁ =>
      simp only [hstep, Except.bind] at h
      exact ⟨s₁, step_eq_ok_iff.mp hstep, h⟩
  · rintro ⟨s₁, hstep, h⟩
    simp only [step_eq_ok_iff.mpr hstep, Except.bind, h]

theorem NoCall.append {b r : List (Token α)} (hb : NoCall b) (hr : NoCall r) : NoCall (b ++ r) := by
  cases b with
  | nil => exact hr
  | cons t b =>
    intro f rest h
    exact hb f b (by rw [(List.cons.inj h).1])

theorem Rests.append {n : Int} {b r : List (Token α)} (hb : Rests n b) (hr : b = [] → Rests n r) :
    Rests n (b ++ r) := by
  cases b with
  | nil => exact hr rfl
  | cons t b => exact hb

/-- A step is the same over a taller stack, unless it is an operator that would move more of it. -/
theorem Steps.above {o k o' k' : List (Token α)} {t : Token α} (h : Steps ⟨o, k⟩ t ⟨o', k'⟩)
    (out : List (Token α)) {r : List (Token α)} (hr : NoCall r)
    (hop : ∀ n, t.threshold? = some n → Rests n r ∨ o' = o ∧ k ≠ []) :
    Steps ⟨out ++ o, k ++ r⟩ t ⟨out ++ o', k' ++ r⟩ := by
  cases h with
  | operand ht =>
    rw [← List.append_assoc]
    exact .operand ht
  | opening => exact .opening
  | name => exact .name
  | @operator o a b t n ht ha hb =>
    rw [← List.append_assoc, List.append_assoc a b r]
    refine .operator ht ha (hb.append fun hnil => ?_)
    rcases hop n ht with hrests | ⟨hquiet, hne⟩
    · exact hrests
    · -- An operator that moves nothing off a stack that is not empty leaves something on it.
      have ha : a = [] := by simpa using hquiet
      exact absurd (by rw [ha, hnil]; rfl) hne
  | closing ha hb =>
    rw [← List.append_assoc, List.append_assoc, List.cons_append]
    exact .closing ha (hb.append hr)
  | closingCall ha =>
    rw [← List.append_assoc, ← List.append_assoc, List.append_assoc _ _ r, List.cons_append,
      List.cons_append]
    exact .closingCall ha
  | comma => exact .comma

/-- Inside a parenthesis a formula does what it does alone. -/
theorem run_above_paren {o k o' k' : List (Token α)} {ts : List (Token α)}
    (h : run ⟨o, k⟩ ts = .ok ⟨o', k'⟩) (out r : List (Token α)) :
    run ⟨out ++ o, k ++ .leftParen :: r⟩ ts = .ok ⟨out ++ o', k' ++ .leftParen :: r⟩ := by
  -- The parenthesis on top of `r` holds every operator up and hides a call below it.
  have hcall : NoCall (.leftParen :: r) := by
    intro f rest hf
    simp at hf
  induction ts generalizing o k with
  | nil =>
    obtain ⟨rfl, rfl⟩ := Shunting.mk.inj (Except.ok.inj h)
    rfl
  | cons t ts ih =>
    obtain ⟨⟨o₁, k₁⟩, hstep, hrun⟩ := run_cons_eq_ok_iff.mp h
    have habove := hstep.above out hcall fun n _ => Or.inl (Or.inl rfl)
    exact run_cons_eq_ok_iff.mpr ⟨_, habove, ih hrun⟩

/-- What is put out comes from the stack and from the tokens taken. -/
theorem Steps.made_of {s s' : Shunting α} {t : Token α} (h : Steps s t s') {P : Token α → Prop}
    (hs : ∀ u ∈ s.stack, P u) (ht : P t) :
    ∃ out, s'.output = s.output ++ out ∧ (∀ u ∈ out, P u) ∧ ∀ u ∈ s'.stack, P u := by
  cases h with
  | operand _ => exact ⟨[t], rfl, by simpa using ht, hs⟩
  | opening => exact ⟨[], by simp, by simp, List.forall_mem_cons.mpr ⟨ht, hs⟩⟩
  | name => exact ⟨[], by simp, by simp, List.forall_mem_cons.mpr ⟨ht, hs⟩⟩
  | operator _ _ _ =>
    obtain ⟨ha, hb⟩ := List.forall_mem_append.mp hs
    exact ⟨_, rfl, ha, List.forall_mem_cons.mpr ⟨ht, hb⟩⟩
  | closing _ _ =>
    obtain ⟨ha, hb⟩ := List.forall_mem_append.mp hs
    exact ⟨_, rfl, ha, (List.forall_mem_cons.mp hb).2⟩
  | @closingCall o a b f _ =>
    obtain ⟨ha, hb⟩ := List.forall_mem_append.mp hs
    obtain ⟨hf, hb⟩ := List.forall_mem_cons.mp (List.forall_mem_cons.mp hb).2
    refine ⟨a ++ [.function f], by simp, ?_, hb⟩
    exact List.forall_mem_append.mpr ⟨ha, by simpa using hf⟩
  | comma => exact ⟨[], by simp, by simp, hs⟩

theorem run_output {s s' : Shunting α} {ts : List (Token α)} (h : s.run ts = .ok s') :
    ∃ out, s'.output = s.output ++ out := by
  induction ts generalizing s with
  | nil => exact ⟨[], by rw [Except.ok.inj h, List.append_nil]⟩
  | cons t ts ih =>
    obtain ⟨s₁, hstep, hrun⟩ := run_cons_eq_ok_iff.mp h
    obtain ⟨out₁, h₁, -, -⟩ := hstep.made_of (P := fun _ => True) (by simp) trivial
    obtain ⟨out, h₂⟩ := ih hrun
    exact ⟨out₁ ++ out, by rw [h₂, h₁, List.append_assoc]⟩

theorem finish_eq_ok_iff {s : Shunting α} {ps : List (Token α)} :
    s.finish = .ok ps ↔ (∀ t ∈ s.stack, t.isOperator = true) ∧ s.output ++ s.stack = ps := by
  constructor
  · intro h
    unfold finish at h
    split at h
    · rename_i hdrop
      have hops := List.dropWhile_eq_nil_iff.mp hdrop
      refine ⟨hops, ?_⟩
      rw [← Except.ok.inj h, waiting, List.takeWhile_eq_self_iff.mpr hops]
    · simp at h
    · simp at h
  · rintro ⟨hops, rfl⟩
    simp only [finish, List.dropWhile_eq_nil_iff.mpr hops, waiting,
      List.takeWhile_eq_self_iff.mpr hops]

theorem toPostfix_eq_ok_iff {ts ps : List (Token α)} :
    toPostfix ts = .ok ps ↔ ∃ s, initial.run ts = .ok s ∧
      (∀ t ∈ s.stack, t.isOperator = true) ∧ s.output ++ s.stack = ps := by
  unfold toPostfix
  constructor
  · intro h
    obtain ⟨s, hrun, h⟩ := exists_of_bind_eq_ok h
    exact ⟨s, hrun, finish_eq_ok_iff.mp h⟩
  · rintro ⟨s, hrun, hs⟩
    simp only [hrun, bind, Except.bind, finish_eq_ok_iff.mpr hs]

end Shunting

end FormulaCalculus
