import FormulaCalculus.Proofs.Postfix.OuterOperators

/-!
A formula read while operators wait below it, as the second argument of a call is. Up to its first
operand nothing is put out but what its leading operator moves; so the waiting operators go in
front of the formula's own tokens only if the leading operator moves all of them.
-/

namespace FormulaCalculus

open Shunting

variable {α : Type}

/-- Whether an operator that comes in puts out an operator that waits. -/
def Moves (p o : Token α) : Prop := ∃ n, p.threshold? = some n ∧ Reaches n o

/-- Whether the operators left waiting by a formula are moved by the leading operator of the formula
behind it. -/
def SettledBy (ts us : List (Token α)) : Prop :=
  ∀ o ∈ outerOperators 0 ts, ∃ p, leadingOperator? 0 us = some p ∧ Moves p o

/-- The tokens of a call with two arguments. -/
def callTokens (f : Function) (ts us : List (Token α)) : List (Token α) :=
  .function f :: .leftParen :: (ts ++ .comma :: (us ++ [.rightParen]))

/-- Whether tokens start with an operand. -/
def OperandFirst (ps : List (Token α)) : Prop := ∃ t rest, ps = t :: rest ∧ t.isOperand = true

theorem Token.isOperand_eq_false {t : Token α} (ht : t.isOperator = true) :
    t.isOperand = false := by
  cases t <;> first | rfl | exact Bool.noConfusion ht

theorem leadingOperator?_of_operand {t : Token α} (ht : t.isOperand = true) (d : Nat)
    (ts : List (Token α)) : leadingOperator? d (t :: ts) = none := by
  cases t <;> first | rfl | exact Bool.noConfusion ht

theorem leadingOperator?_of_operator {t : Token α} (ht : t.isOperator = true)
    (ts : List (Token α)) : leadingOperator? 0 (t :: ts) = some t := by
  cases t <;> first | rfl | exact Bool.noConfusion ht

theorem outerOperators_singleton {d : Nat} {t : Token α} (ht : ¬ (t.isOperator = true ∧ d = 0)) :
    outerOperators d [t] = [] := by
  cases t with
  | leftParen | rightParen => rfl
  | _ => exact if_neg ht

theorem leadingOperator?_cons {d d' : Nat} {t : Token α}
    (hd : parenDepth d t.delimiter?.toList = some d') (ht : t.isOperand = false)
    (hop : ¬ (t.isOperator = true ∧ d = 0)) (ts : List (Token α)) :
    leadingOperator? d (t :: ts) = leadingOperator? d' ts := by
  cases t with
  | leftParen =>
    obtain rfl := Option.some.inj hd
    rfl
  | rightParen =>
    obtain ⟨-, rfl⟩ : d ≠ 0 ∧ d - 1 = d' := by simpa [Token.delimiter?, parenDepth] using hd
    rfl
  | _ =>
    obtain rfl := Option.some.inj hd
    simp only [leadingOperator?, ht, if_neg hop]
    rfl

namespace Shunting

theorem Steps.unique {s s₁ s₂ : Shunting α} {t : Token α} (h₁ : Steps s t s₁) (h₂ : Steps s t s₂) :
    s₁ = s₂ :=
  Except.ok.inj ((step_eq_ok_iff.mpr h₁).symm.trans (step_eq_ok_iff.mpr h₂))

/-- Operators on the stack stay there as long as nothing is put out. -/
theorem Steps.keeps_operator {o k o' k' : List (Token α)} {t u : Token α}
    (h : Steps ⟨o, k⟩ t ⟨o', k'⟩) (ho : o' = o) (hu : u ∈ k) (hop : u.isOperator = true) :
    u ∈ k' := by
  cases h with
  | operand _ | comma => exact hu
  | opening | name => exact List.mem_cons_of_mem _ hu
  | operator _ _ _ =>
    obtain rfl := List.append_right_eq_self.mp ho
    exact List.mem_cons_of_mem _ hu
  | closing _ _ =>
    obtain rfl := List.append_right_eq_self.mp ho
    rcases List.mem_cons.mp hu with rfl | hu
    · exact absurd hop (by simp [Token.isOperator])
    · exact hu
  | closingCall _ =>
    rw [List.append_assoc] at ho
    exact absurd (List.append_right_eq_self.mp ho) (by simp)

/-- An operator that puts nothing out rests on the whole stack. -/
theorem Steps.rests {o k o' k' : List (Token α)} {t : Token α} {n : Int}
    (h : Steps ⟨o, k⟩ t ⟨o', k'⟩) (ho : o' = o) (hn : t.threshold? = some n) :
    Rests n k ∧ k' = t :: k := by
  cases h with
  | operand ht => cases t <;> simp [Token.isOperand, Token.threshold?] at ht hn
  | opening | name | closing _ _ | closingCall _ | comma => simp [Token.threshold?] at hn
  | operator hm _ hb =>
    obtain rfl := List.append_right_eq_self.mp ho
    obtain rfl := Option.some.inj (hn.symm.trans hm)
    exact ⟨hb, rfl⟩

/-- A stack without parentheses and outer operators holds an operator up only if it is empty. -/
theorem eq_nil_of_rests {n : Int} {k : List (Token α)} (hrests : Rests n k)
    (hopen : openParens k = 0) (houter : outerStack k = []) : k = [] := by
  cases k with
  | nil => rfl
  | cons u k =>
    rcases hrests with rfl | ⟨q, hq, -⟩
    · exact absurd hopen openParens_leftParen_ne_zero
    · have hu : u.isOperator = true := Reaches.isOperator ⟨q, hq, le_rfl⟩
      have hne : u ≠ .leftParen := by
        rintro rfl
        exact Bool.noConfusion hu
      have hclosed : openParens k = 0 := (openParens_cons_of_ne hne k).symm.trans hopen
      rw [outerStack, if_pos ⟨hu, hclosed⟩] at houter
      exact absurd houter (by simp)

/-- In front of the first operand that is put out, nothing is put out. -/
theorem Steps.quiet {k o₁ k₁ : List (Token α)} {t : Token α} {ts : List (Token α)}
    {s : Shunting α} (h : Steps ⟨[], k⟩ t ⟨o₁, k₁⟩) (hrun : run ⟨o₁, k₁⟩ ts = .ok s)
    (hfirst : OperandFirst s.output) (hk : ∀ u ∈ k, u.isOperand = false)
    (ht : t.isOperand = false) : o₁ = [] ∧ ∀ u ∈ k₁, u.isOperand = false := by
  obtain ⟨out, ho, hout, hk₁⟩ := h.made_of hk ht
  obtain ⟨out', hout'⟩ := run_output hrun
  obtain rfl : o₁ = out := ho
  refine ⟨?_, hk₁⟩
  cases o₁ with
  | nil => rfl
  | cons u out =>
    obtain ⟨v, rest, hv, hoperand⟩ := hfirst
    have huv : u = v := by
      rw [hout'] at hv
      exact (List.cons.inj hv).1
    rw [← huv, hout u (by simp)] at hoperand
    exact Bool.noConfusion hoperand

/-- Behind the operators that wait, the first token put out is an operand, unless the formula's
leading operator comes in. -/
theorem run_above_operandFirst {ts k : List (Token α)} {s : Shunting α}
    (h : run ⟨[], k⟩ ts = .ok s) (hfirst : OperandFirst s.output)
    (hk : ∀ u ∈ k, u.isOperand = false)
    (hlead : (∃ u ∈ k, u.isOperator = true) ∨ leadingOperator? (openParens k) ts = none)
    {out r : List (Token α)} (hr : NoCall r) {s' : Shunting α}
    (habove : run ⟨out, k ++ r⟩ ts = .ok s') :
    ∃ ps, s'.output = out ++ ps ∧ OperandFirst ps := by
  induction ts generalizing k with
  | nil =>
    obtain ⟨t, rest, hnil, -⟩ := hfirst
    rw [← Except.ok.inj h] at hnil
    exact absurd hnil (by simp)
  | cons t ts ih =>
    obtain ⟨⟨o₁, k₁⟩, hstep, hrun⟩ := run_cons_eq_ok_iff.mp h
    obtain ⟨s₂, hstep', hrun'⟩ := run_cons_eq_ok_iff.mp habove
    by_cases ht : t.isOperand = true
    · obtain rfl := hstep'.unique (.operand ht)
      obtain ⟨ps, hps⟩ := run_output hrun'
      exact ⟨t :: ps, by simpa using hps, t, ps, rfl, ht⟩
    · have ht := Bool.eq_false_iff.mpr ht
      obtain ⟨rfl, hk₁⟩ := hstep.quiet hrun hfirst hk ht
      have houter : (∃ u ∈ k, u.isOperator = true) ∨
          ¬ (t.isOperator = true ∧ openParens k = 0) := by
        refine hlead.imp_right fun hnone hop => ?_
        rw [hop.2, leadingOperator?_of_operator hop.1] at hnone
        nomatch hnone
      -- An operator on an empty stack would be the leading one, so the same step is made above `r`.
      have hne (hop : t.isOperator = true) : k ≠ [] := by
        rintro rfl
        rcases houter with ⟨u, hu, -⟩ | hinner
        · simp at hu
        · exact hinner ⟨hop, rfl⟩
      have hsame := hstep.above out hr fun n hn =>
        Or.inr ⟨rfl, hne (Token.isOperator_of_threshold? hn)⟩
      rw [List.append_nil] at hsame
      obtain rfl := hstep'.unique hsame
      refine ih hrun hk₁ ?_ hrun'
      rcases hlead with ⟨u, hu, hop⟩ | hnone
      · exact Or.inl ⟨u, hstep.keeps_operator rfl hu hop, hop⟩
      · rcases houter with ⟨u, hu, hop⟩ | hinner
        · exact Or.inl ⟨u, hstep.keeps_operator rfl hu hop, hop⟩
        · rw [leadingOperator?_cons hstep.parenDepth_eq ht hinner] at hnone
          exact Or.inr hnone

theorem eq_nil_of_forall_reaches {k : List (Token α)} (h : ∀ n, ∀ u ∈ k, Reaches n u) : k = [] := by
  cases k with
  | nil => rfl
  | cons u k =>
    obtain ⟨p, hp, -⟩ := h 0 u (by simp)
    obtain ⟨q, hq, hle⟩ := h (p + 1) u (by simp)
    have hpq : p = q := Option.some.inj (hp.symm.trans hq)
    omega

/-- Up to its leading operator a formula puts nothing out and leaves nothing of its own on the
stack. -/
theorem run_above_leadingOperator {ts k : List (Token α)} {s : Shunting α} {p : Token α}
    (h : run ⟨[], k⟩ ts = .ok s) (hfirst : OperandFirst s.output)
    (hk : ∀ u ∈ k, u.isOperand = false) (houter : outerStack k = [])
    (hlead : leadingOperator? (openParens k) ts = some p) :
    ∃ n rest, p.threshold? = some n ∧ run ⟨[], [p]⟩ rest = .ok s ∧
      ∀ out a b, (∀ u ∈ a, Reaches n u) → Rests n b → NoCall (a ++ b) →
        run ⟨out, k ++ (a ++ b)⟩ ts = run ⟨out ++ a, p :: b⟩ rest := by
  induction ts generalizing k with
  | nil => simp [leadingOperator?] at hlead
  | cons t ts ih =>
    obtain ⟨⟨o₁, k₁⟩, hstep, hrun⟩ := run_cons_eq_ok_iff.mp h
    have ht : t.isOperand = false := by
      apply Bool.eq_false_iff.mpr
      intro hoperand
      rw [leadingOperator?_of_operand hoperand] at hlead
      nomatch hlead
    obtain ⟨rfl, hk₁⟩ := hstep.quiet hrun hfirst hk ht
    by_cases hop : t.isOperator = true ∧ openParens k = 0
    · obtain rfl : t = p := by
        rw [hop.2, leadingOperator?_of_operator hop.1] at hlead
        exact Option.some.inj hlead
      obtain ⟨n, hn⟩ := Token.exists_threshold? hop.1
      obtain ⟨hrests, rfl⟩ := hstep.rests rfl hn
      obtain rfl := eq_nil_of_rests hrests hop.2 houter
      refine ⟨n, ts, hn, hrun, fun out a b ha hb _ => ?_⟩
      rw [run_cons, List.nil_append, step_eq_ok_iff.mpr (.operator hn ha hb)]
      rfl
    · have hne (hisOperator : t.isOperator = true) : k ≠ [] := by
        rintro rfl
        exact hop ⟨hisOperator, rfl⟩
      -- A token inside a parenthesis leaves nothing of its own outside.
      have houter₁ : outerStack k₁ = [] := by
        refine eq_nil_of_forall_reaches fun n => (hstep.reaches_iff n).mpr ⟨by simp [houter], ?_⟩
        simp [outerOperators_singleton hop]
      rw [leadingOperator?_cons hstep.parenDepth_eq ht hop] at hlead
      obtain ⟨n, rest, hn, hrest, hmoves⟩ := ih hrun hk₁ houter₁ hlead
      refine ⟨n, rest, hn, hrest, fun out a b ha hb hcall => ?_⟩
      have hsame := hstep.above out hcall fun n hn =>
        Or.inr ⟨rfl, hne (Token.isOperator_of_threshold? hn)⟩
      rw [List.append_nil] at hsame
      rw [run_cons, step_eq_ok_iff.mpr hsame]
      exact hmoves out a b ha hb hcall

/-- A stack of operators splits where an operator stops moving them. -/
theorem exists_rests (n : Int) {k : List (Token α)} (hk : ∀ u ∈ k, u.isOperator = true) :
    ∃ a b, k = a ++ b ∧ (∀ u ∈ a, Reaches n u) ∧ Rests n b := by
  induction k with
  | nil => exact ⟨[], [], rfl, by simp, trivial⟩
  | cons u k ih =>
    obtain ⟨hu, hk⟩ := List.forall_mem_cons.mp hk
    obtain ⟨p, hp⟩ : ∃ p, u.precedence? = some p := by
      cases u <;> first | exact ⟨_, rfl⟩ | simp [Token.isOperator] at hu
    by_cases hle : n ≤ p
    · obtain ⟨a, b, rfl, ha, hb⟩ := ih hk
      exact ⟨u :: a, b, rfl, List.forall_mem_cons.mpr ⟨⟨p, hp, hle⟩, ha⟩, hb⟩
    · exact ⟨[], u :: k, rfl, by simp, Or.inr ⟨p, hp, by omega⟩⟩

/-- What a formula leaves waiting reaches a precedence if all its outer operators do. -/
theorem waiting_reaches_iff {ts o k : List (Token α)} (hrun : initial.run ts = .ok ⟨o, k⟩)
    (hk : ∀ u ∈ k, u.isOperator = true) (n : Int) :
    (∀ u ∈ k, Reaches n u) ↔ ∀ u ∈ outerOperators 0 ts, Reaches n u := by
  have h := run_reaches_iff hrun n
  dsimp only at h
  rw [outerStack_of_operators hk] at h
  simpa [initial, outerStack, openParens] using h

theorem noCall_append_paren {k : List (Token α)} (hk : ∀ u ∈ k, u.isOperator = true)
    (r : List (Token α)) : NoCall (k ++ .leftParen :: r) := by
  cases k with
  | nil =>
    intro f rest h
    exact absurd (List.cons.inj h).1 (by simp)
  | cons u k =>
    intro f rest h
    have hu := hk u (by simp)
    rw [(List.cons.inj h).1] at hu
    exact Bool.noConfusion hu

/-- The second argument of a call puts out the operators left waiting by the first one, if its
leading operator moves them all. -/
theorem run_second_argument {f : Function} {ts us o₁ k₁ o₂ k₂ : List (Token α)}
    (hts : initial.run ts = .ok ⟨o₁, k₁⟩) (hk₁ : ∀ u ∈ k₁, u.isOperator = true)
    (hus : initial.run us = .ok ⟨o₂, k₂⟩) (hfirst : OperandFirst o₂) (hsettled : SettledBy ts us) :
    run ⟨o₁, k₁ ++ [.leftParen, .function f]⟩ us =
      .ok ⟨o₁ ++ k₁ ++ o₂, k₂ ++ [.leftParen, .function f]⟩ := by
  -- With nothing waiting the second argument need not have a leading operator.
  by_cases hnone : outerOperators 0 ts = []
  · have hempty : k₁ = [] := eq_nil_of_forall_reaches fun n =>
      (waiting_reaches_iff hts hk₁ n).mpr (by simp [hnone])
    subst hempty
    simpa using run_above_paren hus o₁ [.function f]
  · obtain ⟨o, ho⟩ := List.exists_mem_of_ne_nil _ hnone
    obtain ⟨p, hlead, n, hn, -⟩ := hsettled o ho
    obtain ⟨m, rest, hm, hrest, hmoves⟩ :=
      run_above_leadingOperator hus hfirst (by simp) rfl hlead
    have hreach : ∀ u ∈ k₁, Reaches m u := by
      refine (waiting_reaches_iff hts hk₁ m).mpr fun u hu => ?_
      obtain ⟨q, hq, n', hn', hreaches⟩ := hsettled u hu
      obtain rfl := Option.some.inj (hlead.symm.trans hq)
      obtain rfl := Option.some.inj (hm.symm.trans hn')
      exact hreaches
    have habove := hmoves o₁ k₁ [.leftParen, .function f] hreach (Or.inl rfl)
      (noCall_append_paren hk₁ _)
    have hframe := run_above_paren hrest (o₁ ++ k₁) [.function f]
    rw [List.append_nil] at hframe
    exact habove.trans hframe

/-- If the leading operator of the second argument does not move all that the first one leaves
waiting, an operand comes out in front of a waiting operator. -/
theorem exists_operand_of_not_settledBy {f : Function} {ts us o₁ k₁ o₂ k₂ : List (Token α)}
    (hts : initial.run ts = .ok ⟨o₁, k₁⟩) (hk₁ : ∀ u ∈ k₁, u.isOperator = true)
    (hus : initial.run us = .ok ⟨o₂, k₂⟩) (hfirst : OperandFirst o₂) (hnot : ¬ SettledBy ts us)
    {s : Shunting α} (hrun : run ⟨o₁, k₁ ++ [.leftParen, .function f]⟩ us = .ok s) :
    ∃ a b ps, k₁ = a ++ b ∧ b ≠ [] ∧ s.output = o₁ ++ a ++ ps ∧ OperandFirst ps := by
  simp only [SettledBy, not_forall] at hnot
  obtain ⟨o, ho, hnot⟩ := hnot
  -- Without a leading operator everything stays in place; with one, only what it does not move.
  cases hlead : leadingOperator? 0 us with
  | none =>
    obtain ⟨ps, hps, hfirst'⟩ := run_above_operandFirst hus hfirst (by simp)
      (Or.inr hlead) (noCall_append_paren hk₁ _) hrun
    refine ⟨[], k₁, ps, rfl, ?_, by simpa using hps, hfirst'⟩
    rintro rfl
    have hreaches := fun n => (waiting_reaches_iff hts hk₁ n).mp (by simp) o ho
    have hnil := eq_nil_of_forall_reaches (k := [o]) fun n => by simpa using hreaches n
    exact absurd hnil (by simp)
  | some p =>
    obtain ⟨n, rest, hn, hrest, hmoves⟩ :=
      run_above_leadingOperator hus hfirst (by simp) rfl hlead
    obtain ⟨a, b, rfl, ha, hb⟩ := exists_rests n hk₁
    obtain ⟨-, hops⟩ := List.forall_mem_append.mp hk₁
    have hcall := noCall_append_paren hops [.function f]
    have habove := hmoves o₁ a (b ++ [.leftParen, .function f]) ha
      (hb.append fun _ => Or.inl rfl) (by simpa using noCall_append_paren hk₁ [.function f])
    have hp := Token.isOperator_of_threshold? hn
    obtain ⟨ps, hps, hfirst'⟩ := run_above_operandFirst (k := [p]) hrest hfirst
      (by simpa using Token.isOperand_eq_false hp)
      (Or.inl ⟨p, by simp, hp⟩) hcall (habove.symm.trans (by simpa using hrun))
    refine ⟨a, b, ps, rfl, ?_, hps, hfirst'⟩
    rintro rfl
    refine hnot ⟨p, hlead, n, hn, ?_⟩
    exact (waiting_reaches_iff hts hk₁ n).mp (by simpa using ha) o ho

/-- The run of a call is the run of its second argument above what the first one leaves, and the
closing of the call. -/
theorem run_callTokens_eq_ok_iff {f : Function} {ts us o k : List (Token α)}
    (hts : initial.run ts = .ok ⟨o, k⟩) {s : Shunting α} :
    initial.run (callTokens f ts us) = .ok s ↔
      ∃ s₁, run ⟨o, k ++ [.leftParen, .function f]⟩ us = .ok s₁ ∧ Steps s₁ .rightParen s := by
  have hfirst := run_above_paren hts [] [.function f]
  simp only [List.nil_append] at hfirst
  have hcall : initial.run (callTokens f ts us) =
      (run ⟨o, k ++ [.leftParen, .function f]⟩ us).bind fun s₁ => s₁.step .rightParen := by
    simp only [callTokens, run_cons, run_append, run_nil, step, initial, Except.bind, hfirst]
    cases run ⟨o, k ++ [.leftParen, .function f]⟩ us with
    | error e => rfl
    | ok s₁ =>
      dsimp only
      cases s₁.closeParen <;> rfl
  rw [hcall]
  cases run ⟨o, k ++ [.leftParen, .function f]⟩ us with
  | error e => simp [Except.bind]
  | ok s₁ => simp [Except.bind, step_eq_ok_iff]

theorem operandFirst_output {s : Shunting α} (hs : ∀ u ∈ s.stack, u.isOperator = true)
    (h : OperandFirst (s.output ++ s.stack)) : OperandFirst s.output := by
  obtain ⟨t, rest, ht, hoperand⟩ := h
  cases ho : s.output with
  | nil =>
    rw [ho, List.nil_append] at ht
    have hop := hs t (by simp [ht])
    exact absurd hoperand (by simp [Token.isOperand_eq_false hop])
  | cons u out =>
    rw [ho] at ht
    rw [← (List.cons.inj ht).1] at hoperand
    exact ⟨u, out, rfl, hoperand⟩

end Shunting

variable {f : Function} {ts us ps qs : List (Token α)}

/-- The arguments of a call come out one behind the other, if the second one settles the first. -/
theorem toPostfix_callTokens (hts : toPostfix ts = .ok ps) (hus : toPostfix us = .ok qs)
    (hfirst : OperandFirst qs) (hsettled : SettledBy ts us) :
    toPostfix (callTokens f ts us) = .ok (ps ++ qs ++ [.function f]) := by
  obtain ⟨⟨o₁, k₁⟩, hrun₁, hk₁, rfl⟩ := toPostfix_eq_ok_iff.mp hts
  obtain ⟨⟨o₂, k₂⟩, hrun₂, hk₂, rfl⟩ := toPostfix_eq_ok_iff.mp hus
  have hfirst₂ : OperandFirst o₂ := operandFirst_output hk₂ hfirst
  have hsecond := run_second_argument (f := f) hrun₁ hk₁ hrun₂ hfirst₂ hsettled
  have hclose : Steps ⟨o₁ ++ k₁ ++ o₂, k₂ ++ [.leftParen, .function f]⟩ .rightParen
      ⟨o₁ ++ k₁ ++ o₂ ++ k₂ ++ [.function f], []⟩ :=
    .closingCall (ne_leftParen_of_operators hk₂)
  refine toPostfix_eq_ok_iff.mpr ⟨_, (run_callTokens_eq_ok_iff hrun₁).mpr ⟨_, hsecond, hclose⟩,
    by simp, by simp⟩

/-- If a call puts out operands and operators in the order of its arguments, the second one settles
the first. -/
theorem settledBy_of_toPostfix_callTokens {rs : List (Token α)} (hts : toPostfix ts = .ok ps)
    (hus : toPostfix us = .ok qs) (hfirst : OperandFirst qs)
    (hcall : toPostfix (callTokens f ts us) = .ok rs)
    (horder : rs.map Token.isOperand = (ps ++ qs ++ [Token.function f]).map Token.isOperand) :
    SettledBy ts us := by
  obtain ⟨⟨o₁, k₁⟩, hrun₁, hk₁, rfl⟩ := toPostfix_eq_ok_iff.mp hts
  obtain ⟨⟨o₂, k₂⟩, hrun₂, hk₂, rfl⟩ := toPostfix_eq_ok_iff.mp hus
  obtain ⟨s, hrun, -, rfl⟩ := toPostfix_eq_ok_iff.mp hcall
  obtain ⟨s₁, hsecond, hclose⟩ := (run_callTokens_eq_ok_iff hrun₁).mp hrun
  -- An operand would come out where the arguments in their order have a waiting operator.
  by_contra hnot
  obtain ⟨a, b, qs', rfl, hb, hout, u, rest, rfl, hu⟩ :=
    exists_operand_of_not_settledBy hrun₁ hk₁ hrun₂ (operandFirst_output hk₂ hfirst) hnot hsecond
  obtain ⟨out, hs, -, -⟩ := hclose.made_of (P := fun _ => True) (by simp) trivial
  obtain ⟨v, b, rfl⟩ := List.exists_cons_of_ne_nil hb
  have hv : v.isOperator = true := hk₁ v (by simp)
  rw [hs, hout] at horder
  simp only [List.map_append, List.map_cons, List.append_assoc, List.append_cancel_left_eq,
    List.cons_append, List.cons.injEq, hu] at horder
  have hv' : v.isOperand = true := horder.1.symm
  exact absurd hv' (by simp [Token.isOperand_eq_false hv])

end FormulaCalculus
