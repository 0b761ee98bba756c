import FormulaCalculus.Proofs.Bind
import FormulaCalculus.Tree.Build

/-!
Building over the standard constructors. A token put on a stack of trees leaves what lies deeper as
it is, and each standard operator or function makes the node of its own function.
-/

namespace FormulaCalculus

/-- Whether a function is known under an id; the power is under two. -/
def BinaryFn.HasId (f : BinaryFn) (i : TokenId) : Prop := i = f.id ∨ f = pow ∧ i = TokenId.powCall

namespace Constructors

variable {α β : Type}

theorem standard_get?_unaryFn (f : UnaryFn) :
    (standard : Constructors α β).get? f.id = some (.unary f) := by
  cases f <;> rfl

theorem standard_get?_binaryFn (f : BinaryFn) :
    (standard : Constructors α β).get? f.id = some (.binary f.id f) := by
  cases f <;> rfl

theorem standard_get?_powCall :
    (standard : Constructors α β).get? TokenId.powCall = some (.binary TokenId.powCall .pow) :=
  rfl

theorem standard_get?_of_hasId {f : BinaryFn} {i : TokenId} (h : f.HasId i) :
    (standard : Constructors α β).get? i = some (.binary i f) := by
  rcases h with rfl | ⟨rfl, rfl⟩
  · exact standard_get?_binaryFn f
  · exact standard_get?_powCall

/-- Under an id stands the constructor of the function with this id. -/
theorem standard_get?_eq_some {i : TokenId} {make : Constructor α β}
    (h : (standard : Constructors α β).get? i = some make) :
    (∃ f : UnaryFn, i = f.id ∧ make = .unary f) ∨
      ∃ f : BinaryFn, f.HasId i ∧ make = .binary i f := by
  obtain ⟨⟨j, make'⟩, hfind, rfl⟩ := Option.map_eq_some_iff.mp h
  have hmem := List.mem_of_find?_eq_some hfind
  obtain rfl : j = i := by simpa using List.find?_some hfind
  simp only [standard, List.mem_append, List.mem_map, List.mem_singleton, Prod.mk.injEq] at hmem
  rcases hmem with (⟨f, -, hid, rfl⟩ | ⟨f, -, hid, rfl⟩) | ⟨hid, rfl⟩
  · exact Or.inl ⟨f, hid.symm, rfl⟩
  · exact Or.inr ⟨f, Or.inl hid.symm, by rw [hid]⟩
  · exact Or.inr ⟨.pow, Or.inr ⟨rfl, hid⟩, by rw [hid]⟩

end Constructors

namespace Constructor

variable {α β : Type} {children : List (Node α β)} {a : Node α β}

theorem unary_eq_ok_iff {f : UnaryFn} :
    unary f children = .ok a ↔ ∃ x, children = [x] ∧ a = .unary f x := by
  constructor
  · intro h
    match children, h with
    | [x], h => exact ⟨x, rfl, (Except.ok.inj h).symm⟩
  · rintro ⟨x, rfl, rfl⟩
    rfl

theorem binary_eq_ok_iff {i : TokenId} {f : BinaryFn} :
    binary i f children = .ok a ↔ ∃ x y, children = [x, y] ∧ a = .binary f x y := by
  constructor
  · intro h
    match children, h with
    | [x, y], h => exact ⟨x, y, rfl, (Except.ok.inj h).symm⟩
  · rintro ⟨x, y, rfl, rfl⟩
    rfl

end Constructor

namespace Node

variable {α β : Type} {m : Constructors α β} {bindings : String → Option β}

theorem reduce_one {t : Token α} {f : UnaryFn} (harity : t.arity = 1)
    (hget : m.get? t.id = some (.unary f)) (a : Node α β) (stack : List (Node α β)) :
    reduce m t (a :: stack) = .ok (.unary f a :: stack) := by
  simp [reduce, hget, harity, Constructor.unary]

theorem reduce_two {t : Token α} {f : BinaryFn} {i : TokenId} (harity : t.arity = 2)
    (hget : m.get? t.id = some (.binary i f)) (a b : Node α β) (stack : List (Node α β)) :
    reduce m t (b :: a :: stack) = .ok (.binary f a b :: stack) := by
  simp [reduce, hget, harity, Constructor.binary]

/-- A standard operator or function takes one tree or two from the stack, as its arity says, and puts
back the node of the function with its id. -/
theorem reduce_standard {t : Token α} {stack stack' : List (Node α β)}
    (h : reduce .standard t stack = .ok stack') :
    (∃ f a rest, t.arity = 1 ∧ t.id = f.id ∧ stack = a :: rest ∧ stack' = unary f a :: rest) ∨
      ∃ f a b rest, t.arity = 2 ∧ f.HasId t.id ∧ stack = b :: a :: rest ∧
        stack' = binary f a b :: rest := by
  unfold reduce at h
  cases hget : (Constructors.standard : Constructors α β).get? t.id with
  | none => simp [hget] at h
  | some make =>
    simp only [hget] at h
    split at h
    · nomatch h
    · rename_i hlength
      cases hmake : make (stack.take t.arity).reverse with
      | error e => simp [hmake] at h
      | ok a =>
        simp only [hmake, Except.ok.injEq] at h
        have hsplit := List.take_append_drop t.arity stack
        have htaken : (stack.take t.arity).length = t.arity := List.length_take_of_le (by omega)
        rcases Constructors.standard_get?_eq_some hget with ⟨f, hid, rfl⟩ | ⟨f, hid, rfl⟩
        · obtain ⟨x, hx, rfl⟩ := Constructor.unary_eq_ok_iff.mp hmake
          rw [List.reverse_eq_iff.mp hx] at hsplit htaken
          exact Or.inl ⟨f, x, _, htaken.symm, hid, hsplit.symm, h.symm⟩
        · obtain ⟨x, y, hxy, rfl⟩ := Constructor.binary_eq_ok_iff.mp hmake
          rw [List.reverse_eq_iff.mp hxy] at hsplit htaken
          exact Or.inr ⟨f, x, y, _, htaken.symm, hid, hsplit.symm, h.symm⟩

/-- Only the operands on top of the stack matter. -/
theorem reduce_append {t : Token α} {stack stack' : List (Node α β)}
    (h : reduce m t stack = .ok stack') (rest : List (Node α β)) :
    reduce m t (stack ++ rest) = .ok (stack' ++ rest) := by
  unfold reduce at h ⊢
  cases hget : m.get? t.id with
  | none => simp [hget] at h
  | some make =>
    simp only [hget] at h ⊢
    by_cases hlen : stack.length < t.arity
    · simp [hlen] at h
    · have hle : t.arity ≤ stack.length := by omega
      have hlen' : ¬ (stack ++ rest).length < t.arity := by
        rw [List.length_append]
        omega
      rw [if_neg hlen] at h
      rw [if_neg hlen', List.take_append_of_le_length hle, List.drop_append_of_le_length hle]
      cases hmake : make (stack.take t.arity).reverse with
      | error e => simp [hmake] at h
      | ok a =>
        simp only [hmake, Except.ok.injEq] at h ⊢
        rw [← h, List.cons_append]

theorem push_append {t : Token α} {stack stack' : List (Node α β)}
    (h : push m bindings stack t = .ok stack') (rest : List (Node α β)) :
    push m bindings (stack ++ rest) t = .ok (stack' ++ rest) := by
  cases t with
  | constant c =>
    obtain rfl := Except.ok.inj h
    rfl
  | variableName name =>
    simp only [push] at h ⊢
    cases hb : bindings name with
    | none => simp [hb] at h
    | some b =>
      simp only [hb, Except.ok.injEq] at h ⊢
      rw [← h, List.cons_append]
  | unaryOperator _ | binaryOperator _ | function _ => exact reduce_append h rest
  | _ => simp [push] at h

theorem foldlM_push_append {ts : List (Token α)} {stack stack' : List (Node α β)}
    (h : ts.foldlM (push m bindings) stack = .ok stack') (rest : List (Node α β)) :
    ts.foldlM (push m bindings) (stack ++ rest) = .ok (stack' ++ rest) := by
  induction ts generalizing stack with
  | nil =>
    obtain rfl := Except.ok.inj h
    rfl
  | cons t ts ih =>
    rw [List.foldlM_cons] at h ⊢
    obtain ⟨stack₁, hpush, h⟩ := exists_of_bind_eq_ok h
    rw [push_append hpush rest]
    exact ih h

/-- Whether tokens put a tree on any stack. -/
def Puts (m : Constructors α β) (bindings : String → Option β) (ts : List (Token α))
    (a : Node α β) : Prop :=
  ∀ stack, ts.foldlM (push m bindings) stack = .ok (a :: stack)

/-- The postfix order of a tree is what puts the tree on any stack. -/
theorem ofPostfix_eq_ok_iff {ts : List (Token α)} {a : Node α β} :
    ofPostfix m bindings ts = .ok a ↔ Puts m bindings ts a := by
  have hempty : ofPostfix m bindings ts = .ok a ↔ ts.foldlM (push m bindings) [] = .ok [a] := by
    unfold ofPostfix
    cases ts.foldlM (push m bindings) [] with
    | error e => simp [bind, Except.bind]
    | ok stack =>
      match stack with
      | [] => simp [bind, Except.bind, throw, throwThe, MonadExceptOf.throw]
      | [b] => simp [bind, Except.bind, pure, Except.pure]
      | _ :: _ :: _ => simp [bind, Except.bind, throw, throwThe, MonadExceptOf.throw]
  rw [hempty]
  exact ⟨fun h stack => foldlM_push_append h stack, fun h => h []⟩

namespace Puts

variable {ts us : List (Token α)} {a b : Node α β} {t : Token α}

theorem of_push (h : ∀ stack, push m bindings stack t = .ok (a :: stack)) :
    Puts m bindings [t] a := by
  intro stack
  rw [List.foldlM_cons, h]
  rfl

theorem one {f : UnaryFn} (hts : Puts m bindings ts a)
    (hpush : ∀ stack, push m bindings stack t = reduce m t stack) (harity : t.arity = 1)
    (hget : m.get? t.id = some (.unary f)) : Puts m bindings (ts ++ [t]) (.unary f a) := by
  intro stack
  have ht : push m bindings (a :: stack) t = .ok (.unary f a :: stack) :=
    (hpush _).trans (reduce_one harity hget a stack)
  simp only [List.foldlM_append, hts stack, List.foldlM_cons, bind, Except.bind, ht]
  rfl

theorem two {f : BinaryFn} {i : TokenId} (hts : Puts m bindings ts a) (hus : Puts m bindings us b)
    (hpush : ∀ stack, push m bindings stack t = reduce m t stack) (harity : t.arity = 2)
    (hget : m.get? t.id = some (.binary i f)) :
    Puts m bindings (ts ++ us ++ [t]) (.binary f a b) := by
  intro stack
  have ht : push m bindings (b :: a :: stack) t = .ok (.binary f a b :: stack) :=
    (hpush _).trans (reduce_two harity hget a b stack)
  simp only [List.foldlM_append, hts stack, hus (a :: stack), List.foldlM_cons, bind,
    Except.bind, ht]
  rfl

end Puts

end Node

end FormulaCalculus
