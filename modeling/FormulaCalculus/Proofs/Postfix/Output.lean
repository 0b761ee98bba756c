import FormulaCalculus.Proofs.Postfix.Steps

/-!
What reordering puts out: tokens of the formula, and only those that stand for a node of its tree.
Parentheses are all else that ever lies on the stack, and they are dropped.
-/

namespace FormulaCalculus

variable {α : Type}

/-- Whether a token stands for a node of the tree. -/
def Token.isNode : Token α → Bool
  | start | leftParen | rightParen | comma => false
  | _ => true

theorem Token.isNode_of_isOperator {t : Token α} (ht : t.isOperator = true) : t.isNode = true := by
  cases t <;> first | rfl | exact Bool.noConfusion ht

theorem Token.isNode_of_isOperand {t : Token α} (ht : t.isOperand = true) : t.isNode = true := by
  cases t <;> first | rfl | exact Bool.noConfusion ht

namespace Shunting

variable {P : Token α → Prop} {s s' : Shunting α} {ts ps : List (Token α)}

/-- Reordering makes up no tokens. -/
theorem run_made_of (h : s.run ts = .ok s') (hts : ∀ t ∈ ts, P t)
    (hs : ∀ t ∈ s.output ++ s.stack, P t) : ∀ t ∈ s'.output ++ s'.stack, P t := by
  induction ts generalizing s with
  | nil =>
    obtain rfl := Except.ok.inj h
    exact hs
  | cons t ts ih =>
    obtain ⟨ht, hts⟩ := List.forall_mem_cons.mp hts
    obtain ⟨houtput, hstack⟩ := List.forall_mem_append.mp hs
    obtain ⟨s₁, hstep, hrun⟩ := run_cons_eq_ok_iff.mp h
    obtain ⟨out, hout, hnew, hstack'⟩ := hstep.made_of hstack ht
    refine ih hrun hts (List.forall_mem_append.mpr ⟨?_, hstack'⟩)
    rw [hout]
    exact List.forall_mem_append.mpr ⟨houtput, hnew⟩

theorem toPostfix_made_of (h : toPostfix ts = .ok ps) (hts : ∀ t ∈ ts, P t) : ∀ t ∈ ps, P t := by
  obtain ⟨s, hrun, -, rfl⟩ := toPostfix_eq_ok_iff.mp h
  exact run_made_of hrun hts (by simp [initial])

/-- Whether all tokens of a state stand for nodes, parentheses on the stack apart. -/
structure NodesOnly (s : Shunting α) : Prop where
  output : ∀ t ∈ s.output, t.isNode = true
  stack : ∀ t ∈ s.stack, t ≠ .leftParen → t.isNode = true

theorem Steps.nodesOnly {t : Token α} (h : Steps s t s') (hs : NodesOnly s) : NodesOnly s' := by
  obtain ⟨houtput, hstack⟩ := hs
  have hput {o a b : List (Token α)} (ho : ∀ t ∈ o, t.isNode = true)
      (hstack : ∀ t ∈ a ++ b, t ≠ .leftParen → t.isNode = true) (ha : ∀ t ∈ a, t ≠ .leftParen) :
      ∀ t ∈ o ++ a, t.isNode = true := by
    rw [List.forall_mem_append]
    exact ⟨ho, fun t ht => hstack t (List.mem_append_left b ht) (ha t ht)⟩
  cases h with
  | operand ht =>
    refine ⟨List.forall_mem_append.mpr ⟨houtput, ?_⟩, hstack⟩
    exact List.forall_mem_singleton.mpr (Token.isNode_of_isOperand ht)
  | opening => exact ⟨houtput, List.forall_mem_cons.mpr ⟨fun h => absurd rfl h, hstack⟩⟩
  | name => exact ⟨houtput, List.forall_mem_cons.mpr ⟨fun _ => rfl, hstack⟩⟩
  | operator ht ha hb =>
    have hnode := Token.isNode_of_isOperator (Token.isOperator_of_threshold? ht)
    refine ⟨hput houtput hstack ?_, List.forall_mem_cons.mpr ⟨fun _ => hnode, ?_⟩⟩
    · exact ne_leftParen_of_operators fun u hu => (ha u hu).isOperator
    · exact (List.forall_mem_append.mp hstack).2
  | closing ha hb =>
    have hrest := (List.forall_mem_append.mp hstack).2
    exact ⟨hput houtput hstack ha, (List.forall_mem_cons.mp hrest).2⟩
  | closingCall ha =>
    have hrest := (List.forall_mem_append.mp hstack).2
    obtain ⟨hcall, hrest⟩ := List.forall_mem_cons.mp (List.forall_mem_cons.mp hrest).2
    refine ⟨List.forall_mem_append.mpr ⟨hput houtput hstack ha, ?_⟩, hrest⟩
    exact List.forall_mem_singleton.mpr rfl
  | comma => exact ⟨houtput, hstack⟩

theorem run_nodesOnly (h : s.run ts = .ok s') (hs : NodesOnly s) : NodesOnly s' := by
  induction ts generalizing s with
  | nil =>
    obtain rfl := Except.ok.inj h
    exact hs
  | cons t ts ih =>
    obtain ⟨s₁, hstep, hrun⟩ := run_cons_eq_ok_iff.mp h
    exact ih hrun (hstep.nodesOnly hs)

theorem toPostfix_isNode (h : toPostfix ts = .ok ps) : ∀ t ∈ ps, t.isNode = true := by
  obtain ⟨s, hrun, hops, rfl⟩ := toPostfix_eq_ok_iff.mp h
  have hs := run_nodesOnly hrun ⟨by simp [initial], by simp [initial]⟩
  rw [List.forall_mem_append]
  exact ⟨hs.output, fun t ht => Token.isNode_of_isOperator (hops t ht)⟩

end Shunting

end FormulaCalculus
