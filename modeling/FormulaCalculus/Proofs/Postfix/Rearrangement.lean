import Mathlib.Data.List.Basic
import FormulaCalculus.Proofs.Postfix.Output

/-!
Reordering into postfix order is a rearrangement: it drops the parentheses and commas and keeps
every other token. Operands stay in their order, and no operator or function comes to stand in front
of an operand that stood in front of it. Equal tokens can stand at several places of a formula, so
each token is followed from its place in the formula to its place in the output.
-/

namespace FormulaCalculus

namespace Token

variable {α : Type}

/-- Whether a token only groups other tokens. -/
def isPunctuation : Token α → Bool
  | leftParen | rightParen | comma => true
  | _ => false

/-- Whether a token is an operator or a function. -/
def isApplication : Token α → Bool
  | unaryOperator _ | binaryOperator _ | function _ => true
  | _ => false

theorem isApplication_of_isOperator {t : Token α} (h : t.isOperator = true) :
    t.isApplication = true := by
  cases t <;> first | rfl | exact Bool.noConfusion h

theorem isOperand_of_isApplication {t : Token α} (h : t.isApplication = true) :
    t.isOperand = false := by
  cases t <;> first | rfl | exact Bool.noConfusion h

theorem isPunctuation_of_isApplication {t : Token α} (h : t.isApplication = true) :
    t.isPunctuation = false := by
  cases t <;> first | rfl | exact Bool.noConfusion h

theorem isPunctuation_of_isOperand {t : Token α} (h : t.isOperand = true) :
    t.isPunctuation = false := by
  cases t <;> first | rfl | exact Bool.noConfusion h

end Token

/-- A token together with its place in the formula. -/
abbrev TokenAt (α : Type) := Token α × Nat

namespace TokenAt

variable {α : Type}

/-- The tokens that are kept. -/
def kept (l : List (TokenAt α)) : List (TokenAt α) := l.filter fun x => !x.1.isPunctuation

def operands (l : List (TokenAt α)) : List (TokenAt α) := l.filter fun x => x.1.isOperand

/-- Whether the first token is an operator or function that stands behind the second one, an
operand, in the formula. -/
def StandsBehind (x y : TokenAt α) : Prop :=
  x.1.isApplication = true ∧ y.1.isOperand = true ∧ y.2 < x.2

theorem kept_append (l m : List (TokenAt α)) : kept (l ++ m) = kept l ++ kept m :=
  List.filter_append l m

theorem operands_append (l m : List (TokenAt α)) : operands (l ++ m) = operands l ++ operands m :=
  List.filter_append l m

theorem map_kept (l : List (TokenAt α)) :
    (kept l).map Prod.fst = (l.map Prod.fst).filter fun t => !t.isPunctuation := by
  rw [List.filter_map]
  rfl

theorem map_operands (l : List (TokenAt α)) :
    (operands l).map Prod.fst = (l.map Prod.fst).filter Token.isOperand := by
  rw [List.filter_map]
  rfl

theorem kept_of_forall {l : List (TokenAt α)} (h : ∀ x ∈ l, x.1.isPunctuation = false) :
    kept l = l := by
  apply List.filter_eq_self.mpr
  intro x hx
  rw [h x hx, Bool.not_false]

theorem operands_of_forall {l : List (TokenAt α)} (h : ∀ x ∈ l, x.1.isOperand = false) :
    operands l = [] := by
  apply List.filter_eq_nil_iff.mpr
  intro x hx
  rw [h x hx]
  exact Bool.false_ne_true

end TokenAt

namespace Shunting

open TokenAt

variable {α : Type} {taken out wait : List (TokenAt α)} {o k : List (Token α)} {t : Token α}
  {s s' : Shunting α} {n : Nat}

/-- The tokens of a state with their places, after the tokens `taken` of a formula. -/
structure Tracks (taken out wait : List (TokenAt α)) (s : Shunting α) : Prop where
  output : out.map Prod.fst = s.output
  stack : wait.map Prod.fst = s.stack
  /-- What lies on the stack is a parenthesis, or waits for its operands. -/
  waiting : ∀ x ∈ wait, x.1 = .leftParen ∨ x.1.isApplication = true
  perm : (out ++ kept wait).Perm (kept taken)
  sameOperands : operands out = operands taken
  inFront : out.Pairwise fun x y => ¬ x.StandsBehind y

namespace Tracks

theorem isOperand_eq_false (h : Tracks taken out wait s) {x : TokenAt α} (hx : x ∈ wait) :
    x.1.isOperand = false := by
  rcases h.waiting x hx with hparen | happlication
  · rw [hparen]
    rfl
  · exact Token.isOperand_of_isApplication happlication

theorem isPunctuation_eq_false (h : Tracks taken out wait s) {x : TokenAt α} (hx : x ∈ wait)
    (hparen : x.1 ≠ .leftParen) : x.1.isPunctuation = false :=
  Token.isPunctuation_of_isApplication ((h.waiting x hx).resolve_left hparen)

theorem mem_taken (h : Tracks taken out wait s) {x : TokenAt α} (hx : x ∈ out) : x ∈ taken :=
  (List.mem_filter.mp (h.perm.subset (List.mem_append_left _ hx))).1

/-- An operand goes to the output at once. -/
theorem putOperand (h : Tracks taken out wait ⟨o, k⟩) (ht : t.isOperand = true)
    (hn : ∀ x ∈ taken, x.2 < n) :
    Tracks (taken ++ [(t, n)]) (out ++ [(t, n)]) wait ⟨o ++ [t], k⟩ where
  output := by rw [List.map_append, h.output, List.map_singleton]
  stack := h.stack
  waiting := h.waiting
  perm := by
    have hself : kept [(t, n)] = [(t, n)] := by
      simp [kept, Token.isPunctuation_of_isOperand ht]
    rw [kept_append, hself, List.append_assoc]
    calc
      (out ++ ([(t, n)] ++ kept wait)).Perm (out ++ (kept wait ++ [(t, n)])) :=
        List.perm_append_comm.append_left out
      _ = out ++ kept wait ++ [(t, n)] := (List.append_assoc _ _ _).symm
      List.Perm _ (kept taken ++ [(t, n)]) := h.perm.append_right _
  sameOperands := by rw [operands_append, operands_append, h.sameOperands]
  inFront := by
    apply List.pairwise_append.mpr
    refine ⟨h.inFront, List.pairwise_singleton _ _, ?_⟩
    intro x hx y hy hbehind
    -- everything put out so far stands in front of the new operand
    obtain rfl := List.mem_singleton.mp hy
    have hlt := hn x (h.mem_taken hx)
    have hgt : n < x.2 := hbehind.2.2
    omega

/-- An operator, a function or an opening parenthesis is put on the stack. -/
theorem putOnStack (h : Tracks taken out wait ⟨o, k⟩)
    (ht : t = .leftParen ∨ t.isApplication = true) (n : Nat) :
    Tracks (taken ++ [(t, n)]) out ((t, n) :: wait) ⟨o, t :: k⟩ where
  output := h.output
  stack := by rw [List.map_cons, h.stack]
  waiting := List.forall_mem_cons.mpr ⟨ht, h.waiting⟩
  perm := by
    have hsplit : kept ((t, n) :: wait) = kept [(t, n)] ++ kept wait :=
      kept_append [(t, n)] wait
    rw [kept_append, hsplit]
    calc
      (out ++ (kept [(t, n)] ++ kept wait)).Perm (out ++ (kept wait ++ kept [(t, n)])) :=
        List.perm_append_comm.append_left out
      _ = out ++ kept wait ++ kept [(t, n)] := (List.append_assoc _ _ _).symm
      List.Perm _ (kept taken ++ kept [(t, n)]) := h.perm.append_right _
  sameOperands := by
    have hnone : operands [(t, n)] = [] := by
      apply operands_of_forall
      rintro x hx
      obtain rfl := List.mem_singleton.mp hx
      rcases ht with rfl | happlication
      · rfl
      · exact Token.isOperand_of_isApplication happlication
    rw [operands_append, hnone, List.append_nil, h.sameOperands]
  inFront := h.inFront

/-- A comma or a closing parenthesis is dropped. -/
theorem drop (h : Tracks taken out wait s) (ht : t.isPunctuation = true) (n : Nat) :
    Tracks (taken ++ [(t, n)]) out wait s where
  output := h.output
  stack := h.stack
  waiting := h.waiting
  perm := by
    have hnone : kept [(t, n)] = [] := by simp [kept, ht]
    rw [kept_append, hnone, List.append_nil]
    exact h.perm
  sameOperands := by
    have hnone : operands [(t, n)] = [] := by
      cases t <;> first | rfl | exact Bool.noConfusion ht
    rw [operands_append, hnone, List.append_nil, h.sameOperands]
  inFront := h.inFront

/-- Tokens move from the stack to the output. -/
theorem move {moved left : List (TokenAt α)} {a b : List (Token α)}
    (h : Tracks taken out (moved ++ left) ⟨o, a ++ b⟩) (hmap : moved.map Prod.fst = a)
    (ha : ∀ t ∈ a, t ≠ .leftParen) : Tracks taken (out ++ moved) left ⟨o ++ a, b⟩ where
  output := by rw [List.map_append, h.output, hmap]
  stack := by
    have hstack := h.stack
    rw [List.map_append, hmap] at hstack
    exact List.append_cancel_left hstack
  waiting := (List.forall_mem_append.mp h.waiting).2
  perm := by
    have hself : kept moved = moved := by
      apply kept_of_forall
      intro x hx
      have hparen : x.1 ≠ .leftParen := ha x.1 (hmap ▸ List.mem_map_of_mem hx)
      exact h.isPunctuation_eq_false (List.mem_append_left left hx) hparen
    have hperm := h.perm
    rw [kept_append, hself, ← List.append_assoc] at hperm
    exact hperm
  sameOperands := by
    have hnone : operands moved = [] := by
      apply operands_of_forall
      intro x hx
      exact h.isOperand_eq_false (List.mem_append_left left hx)
    rw [operands_append, hnone, List.append_nil, h.sameOperands]
  inFront := by
    have hnone {y : TokenAt α} (hy : y ∈ moved) (x : TokenAt α) : ¬ x.StandsBehind y := by
      intro hbehind
      have hfalse := h.isOperand_eq_false (List.mem_append_left left hy)
      exact Bool.false_ne_true (hfalse.symm.trans hbehind.2.1)
    apply List.pairwise_append.mpr
    refine ⟨h.inFront, ?_, fun x _ y hy => hnone hy x⟩
    exact List.pairwise_of_forall_mem_list fun x _ y hy => hnone hy x

/-- The opening parenthesis leaves the stack. -/
theorem dropParen {p : TokenAt α} (h : Tracks taken out (p :: wait) ⟨o, .leftParen :: k⟩) :
    Tracks taken out wait ⟨o, k⟩ where
  output := h.output
  stack := (List.cons.inj h.stack).2
  waiting := (List.forall_mem_cons.mp h.waiting).2
  perm := by
    have hparen : p.1 = .leftParen := (List.cons.inj h.stack).1
    have hnone : kept (p :: wait) = kept wait := by
      simp [kept, hparen, Token.isPunctuation]
    have hperm := h.perm
    rw [hnone] at hperm
    exact hperm
  sameOperands := h.sameOperands
  inFront := h.inFront

end Tracks

/-- The stack without tokens on top that are put out, and without the parenthesis below them. -/
theorem Tracks.close {a b : List (Token α)} (h : Tracks taken out wait ⟨o, a ++ .leftParen :: b⟩)
    (ha : ∀ t ∈ a, t ≠ .leftParen) : ∃ out' wait', Tracks taken out' wait' ⟨o ++ a, b⟩ := by
  obtain ⟨moved, left, rfl, hmap, hleft⟩ := List.map_eq_append_iff.mp h.stack
  obtain ⟨p, left, rfl, -, -⟩ := List.map_eq_cons_iff.mp hleft
  exact ⟨out ++ moved, left, (h.move hmap ha).dropParen⟩

/-- One step takes one token and loses track of none. -/
theorem Steps.tracks (h : Steps s t s') (hs : Tracks taken out wait s)
    (hn : ∀ x ∈ taken, x.2 < n) : ∃ out' wait', Tracks (taken ++ [(t, n)]) out' wait' s' := by
  cases h with
  | operand ht => exact ⟨_, _, hs.putOperand ht hn⟩
  | opening => exact ⟨_, _, hs.putOnStack (Or.inl rfl) n⟩
  | name => exact ⟨_, _, hs.putOnStack (Or.inr rfl) n⟩
  | operator ht ha hb =>
    obtain ⟨moved, left, rfl, hmap, -⟩ := List.map_eq_append_iff.mp hs.stack
    have hmoved := hs.move hmap (ne_leftParen_of_operators fun u hu => (ha u hu).isOperator)
    have happlication := Token.isApplication_of_isOperator (Token.isOperator_of_threshold? ht)
    exact ⟨_, _, hmoved.putOnStack (Or.inr happlication) n⟩
  | closing ha hb =>
    obtain ⟨out', wait', hclosed⟩ := hs.close ha
    exact ⟨out', wait', hclosed.drop rfl n⟩
  | @closingCall o a b f ha =>
    obtain ⟨out', wait', hclosed⟩ := hs.close ha
    obtain ⟨p, left, rfl, hp, -⟩ := List.map_eq_cons_iff.mp hclosed.stack
    -- the function that is left on top is moved as well
    have hcall : Tracks taken out' ([p] ++ left) ⟨o ++ a, [.function f] ++ b⟩ := hclosed
    have hmoved := hcall.move (congrArg (fun u => [u]) hp) (by simp)
    exact ⟨_, _, hmoved.drop rfl n⟩
  | comma => exact ⟨out, wait, hs.drop rfl n⟩

theorem run_tracks {ts : List (Token α)} (h : s.run ts = .ok s') (hs : Tracks taken out wait s)
    (hn : ∀ x ∈ taken, x.2 < n) : ∃ out' wait', Tracks (taken ++ ts.zipIdx n) out' wait' s' := by
  induction ts generalizing s taken out wait n with
  | nil =>
    obtain rfl := Except.ok.inj h
    exact ⟨out, wait, by simpa using hs⟩
  | cons t ts ih =>
    obtain ⟨s₁, hstep, hrun⟩ := run_cons_eq_ok_iff.mp h
    obtain ⟨out₁, wait₁, hs₁⟩ := hstep.tracks hs hn
    have hn₁ : ∀ x ∈ taken ++ [(t, n)], x.2 < n + 1 := by
      intro x hx
      rcases List.mem_append.mp hx with hx | hx
      · have hlt := hn x hx
        omega
      · rw [List.mem_singleton.mp hx]
        exact Nat.lt_succ_self n
    have hrest := ih hrun hs₁ hn₁
    rw [List.append_assoc] at hrest
    exact hrest

end Shunting

section

open TokenAt

variable {α : Type} {ts ps : List (Token α)}

/-- Whether a list holds the tokens of a formula but its parentheses and commas, in an order in
which no operator or function comes to stand in front of an operand that stood in front of it. -/
structure Rearranges (ts ps : List (Token α)) : Prop where
  perm : ps.Perm (ts.filter fun t => !t.isPunctuation)
  sameOperands : ps.filter Token.isOperand = ts.filter Token.isOperand
  /-- Each token of the formula that is kept has one place in the list, and each place one token of
  the formula. -/
  followed : ∃ placed : List (TokenAt α), placed.map Prod.fst = ps ∧
    placed.Perm (kept ts.zipIdx) ∧ operands placed = operands ts.zipIdx ∧
    placed.Pairwise fun x y => ¬ x.StandsBehind y

/-- Reordering a formula loses and invents no token. -/
theorem toPostfix_rearranges (h : toPostfix ts = .ok ps) : Rearranges ts ps := by
  obtain ⟨s, hrun, hops, rfl⟩ := Shunting.toPostfix_eq_ok_iff.mp h
  have hinitial : Shunting.Tracks ([] : List (TokenAt α)) [] [] .initial :=
    ⟨rfl, rfl, by simp, by simp [kept], rfl, List.Pairwise.nil⟩
  obtain ⟨out, wait, hs⟩ := Shunting.run_tracks (n := 0) hrun hinitial (by simp)
  rw [List.nil_append] at hs
  -- at the end all that waits is put out
  have hdrained : Shunting.Tracks ts.zipIdx (out ++ wait) [] ⟨s.output ++ s.stack, []⟩ := by
    have hparen := Shunting.ne_leftParen_of_operators hops
    exact Shunting.Tracks.move (by simpa using hs) hs.stack hparen
  have hperm : (out ++ wait).Perm (kept ts.zipIdx) := by
    simpa [kept] using hdrained.perm
  refine ⟨?_, ?_, out ++ wait, hdrained.output, hperm, hdrained.sameOperands, hdrained.inFront⟩
  · have hmap := hperm.map Prod.fst
    rw [hdrained.output, map_kept, List.zipIdx_map_fst] at hmap
    exact hmap
  · have hmap := congrArg (List.map Prod.fst) hdrained.sameOperands
    rw [map_operands, map_operands, hdrained.output, List.zipIdx_map_fst] at hmap
    exact hmap

/-- The call `pow(-x,y)` times `x`: both places of `x` are followed. -/
theorem toPostfix_rearranges_call :
    let x : Token Unit := .variableName "x"
    let y : Token Unit := .variableName "y"
    let minus : Token Unit := .unaryOperator ⟨TokenId.neg, 10, false, []⟩
    let times : Token Unit := .binaryOperator ⟨TokenId.mul, 5, true, true, false, []⟩
    let pow : Token Unit := .function ⟨TokenId.powCall, 2⟩
    let ts := [pow, .leftParen, minus, x, .comma, y, .rightParen, times, x]
    let ps := [x, y, minus, pow, x, times]
    toPostfix ts = .ok ps ∧ Rearranges ts ps :=
  ⟨rfl, toPostfix_rearranges rfl⟩

end

end FormulaCalculus
