import Mathlib.Data.List.TakeWhile
import FormulaCalculus.Postfix
import FormulaCalculus.Proofs.Bind

/-!
The stack of operators. An operator moves those operators on top of the stack whose precedence
reaches its threshold. A part of a formula leaves operators waiting on the stack; the next operator
outside that part, or the closing parenthesis, puts them out.
-/

namespace FormulaCalculus

namespace Shunting

variable {α : Type}

@[simp] theorem run_nil (s : Shunting α) : s.run [] = .ok s := rfl

@[simp] theorem run_cons (s : Shunting α) (t : Token α) (ts : List (Token α)) :
    s.run (t :: ts) = (s.step t).bind fun s' => s'.run ts := by
  simp only [run, List.foldlM_cons]
  rfl

@[simp] theorem run_append (s : Shunting α) (ts us : List (Token α)) :
    s.run (ts ++ us) = (s.run ts).bind fun s' => s'.run us := by
  simp only [run, List.foldlM_append]
  rfl

/-- The least precedence of the operators that an operator moves to the output. -/
def threshold (precedence : Int) (leftAssociative : Bool) : Int :=
  if leftAssociative then precedence else precedence + 1

/-- Whether a token is an operator of precedence at least `n`. -/
def Reaches (n : Int) (t : Token α) : Prop := ∃ p, t.precedence? = some p ∧ n ≤ p

/-- Whether an operator of threshold `n` moves nothing from the stack. -/
def Rests (n : Int) : List (Token α) → Prop
  | [] => True
  | t :: _ => t = .leftParen ∨ ∃ p, t.precedence? = some p ∧ p < n

theorem Reaches.mono {m n : Int} (h : m ≤ n) {t : Token α} (ht : Reaches n t) : Reaches m t := by
  obtain ⟨p, hp, hn⟩ := ht
  exact ⟨p, hp, Int.le_trans h hn⟩

theorem Reaches.isOperator {n : Int} {t : Token α} (ht : Reaches n t) : t.isOperator = true := by
  obtain ⟨p, hp, -⟩ := ht
  cases t with
  | unaryOperator _ | binaryOperator _ => rfl
  | _ => simp [Token.precedence?] at hp

theorem ne_leftParen_of_operators {k : List (Token α)} (hk : ∀ u ∈ k, u.isOperator = true) :
    ∀ u ∈ k, u ≠ .leftParen := by
  rintro u hu rfl
  exact Bool.noConfusion (hk _ hu)

theorem Rests.mono {m n : Int} (h : m ≤ n) {k : List (Token α)} (hk : Rests m k) : Rests n k := by
  cases k with
  | nil => trivial
  | cons t k =>
    rcases hk with ht | ⟨p, hp, hm⟩
    · exact Or.inl ht
    · exact Or.inr ⟨p, hp, by omega⟩

theorem Rests.not_function {n : Int} {f : Function} {k : List (Token α)} :
    ¬ Rests n (.function f :: k) := by
  rintro (h | ⟨p, hp, -⟩)
  · simp at h
  · simp [Token.precedence?] at hp

theorem moves_iff {p q : Int} {left : Bool} :
    (q > p || (q == p && left)) = true ↔ threshold p left ≤ q := by
  rw [Bool.or_eq_true, Bool.and_eq_true, decide_eq_true_eq, beq_iff_eq]
  cases left with
  | false =>
    have hthreshold : threshold p false = p + 1 := rfl
    rw [hthreshold]
    simp only [Bool.false_eq_true, and_false, or_false]
    omega
  | true =>
    have hthreshold : threshold p true = p := rfl
    rw [hthreshold]
    simp only [and_true]
    omega

theorem splitOperators_of_rests {p : Int} {left : Bool} {k : List (Token α)}
    (hk : Rests (threshold p left) k) : splitOperators p left k = .ok ([], k) := by
  cases k with
  | nil => rfl
  | cons t k =>
    rcases hk with rfl | ⟨q, hq, hlt⟩
    · rfl
    · have hmove : ¬ (q > p || (q == p && left)) = true := by
        rw [moves_iff]
        omega
      cases t with
      | unaryOperator _ | binaryOperator _ => simp only [splitOperators, hq, if_neg hmove]
      | _ => simp [Token.precedence?] at hq

theorem splitOperators_cons {p : Int} {left : Bool} {t : Token α}
    (ht : Reaches (threshold p left) t) (k : List (Token α)) :
    splitOperators p left (t :: k) =
      (splitOperators p left k).map fun s => (t :: s.1, s.2) := by
  obtain ⟨q, hq, hle⟩ := ht
  have hmove := moves_iff.mpr hle
  cases t with
  | unaryOperator _ | binaryOperator _ =>
    simp only [splitOperators, hq, if_pos hmove]
    cases splitOperators p left k <;> rfl
  | _ => simp [Token.precedence?] at hq

/-- Operators that reach the threshold are moved, down to the part of the stack that rests. -/
theorem splitOperators_append {p : Int} {left : Bool} {w k : List (Token α)}
    (hw : ∀ t ∈ w, Reaches (threshold p left) t) (hk : Rests (threshold p left) k) :
    splitOperators p left (w ++ k) = .ok (w, k) := by
  induction w with
  | nil => exact splitOperators_of_rests hk
  | cons t w ih =>
    rw [List.cons_append, splitOperators_cons (hw t (by simp)),
      ih fun u hu => hw u (by simp [hu])]
    rfl

theorem splitParen_append {w : List (Token α)} (hw : ∀ t ∈ w, t.isOperator = true)
    (k : List (Token α)) : splitParen (w ++ .leftParen :: k) = .ok (w, k) := by
  induction w with
  | nil => rfl
  | cons t w ih =>
    have hrest := ih fun u hu => hw u (by simp [hu])
    have ht := hw t (by simp)
    cases t with
    | unaryOperator _ | binaryOperator _ =>
      simp only [List.cons_append, splitParen, hrest]
      rfl
    | _ => simp [Token.isOperator] at ht

/-- From `s` to `s'` the tokens `ps` have been put out, and the stack is as it was. -/
def PutsOut (ps : List (Token α)) (s s' : Shunting α) : Prop := s' = ⟨s.output ++ ps, s.stack⟩

/-- From `s` to `s'` the tokens `ps` have been put out, except for operators of precedence at least
`n` at their end, which wait on top of the stack. -/
def Settles (n : Int) (ps : List (Token α)) (s s' : Shunting α) : Prop :=
  ∃ out waiting, s' = ⟨s.output ++ out, waiting ++ s.stack⟩ ∧ out ++ waiting = ps ∧
    ∀ t ∈ waiting, Reaches n t

namespace Settles

variable {m n : Int} {ps qs : List (Token α)} {s s' : Shunting α}

theorem refl (n : Int) (s : Shunting α) : Settles n [] s s :=
  ⟨[], [], by simp, rfl, by simp⟩

theorem mono (h : m ≤ n) (hs : Settles n ps s s') : Settles m ps s s' := by
  obtain ⟨out, waiting, hs', hps, hw⟩ := hs
  exact ⟨out, waiting, hs', hps, fun t ht => (hw t ht).mono h⟩

theorem of_putsOut (n : Int) (h : PutsOut ps s s') : Settles n ps s s' :=
  ⟨ps, [], h, by simp, by simp⟩

/-- An operator puts out all that waits, when its threshold is low enough and the stack below
rests. -/
theorem pushOperator {p : Int} {left : Bool} (t : Token α) (hs : Settles n ps s s')
    (hn : threshold p left ≤ n) (hk : Rests (threshold p left) s.stack) :
    s'.pushOperator t p left = .ok ⟨s.output ++ ps, t :: s.stack⟩ := by
  obtain ⟨out, waiting, rfl, rfl, hw⟩ := hs
  -- All that waits reaches the threshold, and what lies below it does not.
  have hsplit := splitOperators_append (fun t ht => (hw t ht).mono hn) hk
  simp only [Shunting.pushOperator, hsplit]
  simp [bind, Except.bind, pure, Except.pure]

/-- Below the operands of an operator the operator itself waits. -/
theorem operator {t : Token α} (ht : Reaches m t)
    (hs : Settles m qs ⟨s.output ++ ps, t :: s.stack⟩ s') :
    Settles m (ps ++ qs ++ [t]) s s' := by
  obtain ⟨out, waiting, rfl, rfl, hw⟩ := hs
  refine ⟨ps ++ out, waiting ++ [t], by simp, by simp, ?_⟩
  intro u hu
  rcases List.mem_append.mp hu with hu | hu
  · exact hw u hu
  · rw [List.mem_singleton.mp hu]
    exact ht

/-- A closing parenthesis puts out all that waits. -/
theorem splitParen {o k : List (Token α)} (hs : Settles n ps ⟨o, .leftParen :: k⟩ s') :
    ∃ out waiting, s'.output = o ++ out ∧ out ++ waiting = ps ∧
      Shunting.splitParen s'.stack = .ok (waiting, k) := by
  obtain ⟨out, waiting, rfl, hps, hw⟩ := hs
  exact ⟨out, waiting, rfl, hps, splitParen_append (fun t ht => (hw t ht).isOperator) k⟩

theorem closeParen {o k : List (Token α)} (hs : Settles n ps ⟨o, .leftParen :: k⟩ s')
    (hk : Rests m k) : s'.closeParen = .ok ⟨o ++ ps, k⟩ := by
  obtain ⟨out, waiting, ho, rfl, hsplit⟩ := hs.splitParen
  simp only [Shunting.closeParen, hsplit, ho, bind, Except.bind]
  cases k with
  | nil => simp [pure, Except.pure]
  | cons t k =>
    cases t with
    | function f => exact absurd hk Rests.not_function
    | _ => simp [pure, Except.pure]

/-- The parenthesis of a call puts the function out behind its arguments. -/
theorem closeCall {o k : List (Token α)} {f : Function}
    (hs : Settles n ps ⟨o, .leftParen :: .function f :: k⟩ s') :
    s'.closeParen = .ok ⟨o ++ ps ++ [.function f], k⟩ := by
  obtain ⟨out, waiting, ho, rfl, hsplit⟩ := hs.splitParen
  simp [Shunting.closeParen, hsplit, ho, bind, Except.bind, pure, Except.pure]

theorem finish (hs : Settles n ps initial s') : s'.finish = .ok ps := by
  obtain ⟨out, waiting, rfl, rfl, hw⟩ := hs
  have hop : ∀ t ∈ waiting, t.isOperator = true := fun t ht => (hw t ht).isOperator
  have hdrop : (waiting ++ (initial : Shunting α).stack).dropWhile Token.isOperator = [] := by
    simpa [initial, List.dropWhile_eq_nil_iff] using hop
  have htake : (waiting ++ (initial : Shunting α).stack).takeWhile Token.isOperator = waiting := by
    simpa [initial, List.takeWhile_eq_self_iff] using hop
  simp only [Shunting.finish, hdrop, Shunting.waiting, htake]
  rfl

end Settles

end Shunting

end FormulaCalculus
