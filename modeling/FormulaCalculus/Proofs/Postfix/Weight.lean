import Mathlib
import FormulaCalculus.Proofs.Postfix.Steps
import FormulaCalculus.Proofs.Tree.Building

/-!
The weight of a list of tokens: the number of trees it leaves on the stack of the builder, less
those it takes. The reordering keeps it, and tokens from which one tree is built weigh one.
-/

namespace FormulaCalculus

variable {α β : Type}

/-- The number of trees a token puts on the stack, less those it takes from it. -/
def Token.weight : Token α → Int
  | constant _ | variableName _ => 1
  | unaryOperator _ => 0
  | binaryOperator _ => -1
  | function f => 1 - f.arity
  | start | leftParen | rightParen | comma => 0

def weight (ts : List (Token α)) : Int := (ts.map Token.weight).sum

@[simp] theorem weight_nil : weight ([] : List (Token α)) = 0 := rfl

@[simp] theorem weight_cons (t : Token α) (ts : List (Token α)) :
    weight (t :: ts) = t.weight + weight ts := by
  simp [weight]

@[simp] theorem weight_append (ts us : List (Token α)) :
    weight (ts ++ us) = weight ts + weight us := by
  simp [weight]

theorem Token.weight_of_isOperand {t : Token α} (ht : t.isOperand = true) : t.weight = 1 := by
  cases t <;> first | rfl | exact Bool.noConfusion ht

namespace Shunting

/-- A step moves tokens from the stack to the output and drops no token that weighs. -/
theorem Steps.weight_eq {s s' : Shunting α} {t : Token α} (h : Steps s t s') :
    weight s'.output + weight s'.stack = weight s.output + weight s.stack + t.weight := by
  cases h with
  | operand _ =>
    simp only [weight_append, weight_cons, weight_nil]
    omega
  | opening | name =>
    simp only [weight_cons]
    omega
  | operator _ _ _ =>
    simp only [weight_append, weight_cons]
    omega
  | closing _ _ | closingCall _ =>
    simp only [weight_append, weight_cons, weight_nil, Token.weight]
    omega
  | comma => simp only [Token.weight, Int.add_zero]

theorem run_weight {s s' : Shunting α} {ts : List (Token α)} (h : s.run ts = .ok s') :
    weight s'.output + weight s'.stack = weight s.output + weight s.stack + weight ts := by
  induction ts generalizing s with
  | nil =>
    rw [Except.ok.inj h]
    simp
  | cons t ts ih =>
    obtain ⟨s₁, hstep, hrun⟩ := run_cons_eq_ok_iff.mp h
    have hfirst := hstep.weight_eq
    have hrest := ih hrun
    rw [weight_cons]
    omega

end Shunting

theorem weight_of_toPostfix {ts ps : List (Token α)} (h : toPostfix ts = .ok ps) :
    weight ps = weight ts := by
  obtain ⟨s, hrun, -, rfl⟩ := Shunting.toPostfix_eq_ok_iff.mp h
  have hweight := Shunting.run_weight hrun
  simp only [Shunting.initial, weight_nil] at hweight
  rw [weight_append]
  omega

namespace Node

variable {m : Constructors α β} {bindings : String → Option β} {t : Token α}
  {stack stack' : List (Node α β)}

theorem reduce_length (h : reduce m t stack = .ok stack') :
    (stack'.length : Int) = stack.length + 1 - t.arity := by
  unfold reduce at h
  cases hget : m.get? t.id with
  | none => simp [hget] at h
  | some make =>
    simp only [hget] at h
    split at h
    · simp at h
    · rename_i hlength
      cases hmake : make (stack.take t.arity).reverse with
      | error e => simp [hmake] at h
      | ok a =>
        simp only [hmake, Except.ok.injEq] at h
        rw [← h, List.length_cons, List.length_drop]
        omega

theorem push_length (h : push m bindings stack t = .ok stack') :
    (stack'.length : Int) = stack.length + t.weight := by
  cases t with
  | constant c =>
    obtain rfl := Except.ok.inj h
    simp [Token.weight]
  | variableName name =>
    simp only [push] at h
    cases hb : bindings name with
    | none => simp [hb] at h
    | some b =>
      simp only [hb, Except.ok.injEq] at h
      rw [← h]
      simp [Token.weight]
  | unaryOperator _ | binaryOperator _ | function _ =>
    have hlength := reduce_length h
    simp only [Token.arity] at hlength
    simp only [Token.weight]
    omega
  | _ => simp [push] at h

theorem foldlM_push_length {ts : List (Token α)}
    (h : ts.foldlM (push m bindings) stack = .ok stack') :
    (stack'.length : Int) = stack.length + weight ts := by
  induction ts generalizing stack with
  | nil =>
    obtain rfl := Except.ok.inj h
    simp
  | cons t ts ih =>
    rw [List.foldlM_cons] at h
    obtain ⟨stack₁, hpush, h⟩ := exists_of_bind_eq_ok h
    have hfirst := push_length hpush
    have hrest := ih h
    rw [weight_cons]
    omega

/-- Tokens from which one tree is built weigh one. -/
theorem Puts.weight_eq {ps : List (Token α)} {a : Node α β} (h : Puts m bindings ps a) :
    weight ps = 1 := by
  have hlength := foldlM_push_length (h [])
  simpa using hlength.symm

end Node

end FormulaCalculus
