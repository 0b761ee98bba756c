import FormulaCalculus.Expression
import FormulaCalculus.Proofs.Failure.Lexing
import FormulaCalculus.Proofs.Postfix.Balance
import FormulaCalculus.Proofs.Postfix.Output
import FormulaCalculus.Proofs.Tree.Building
import FormulaCalculus.Scalar.Double

/-!
How compilation fails. What the lexer gives out under the standard lexicon, the constructors know;
so with a binding for each name only the operands of a formula can be too few or too many. Together
with the faults that the lexer and the reordering find, these are all errors of compilation.
-/

namespace FormulaCalculus

open Lexicon

variable {α β : Type}

def ParseError.fault? : ParseError → Option Fault
  | mismatchedParentheses => some .mismatchedParentheses
  | leftoverOperators _ | unexpectedToken _ | unexpectedStackToken _ => none

def BuildError.fault? : BuildError → Option Fault
  | stackUnderflow _ _ _ => some .stackUnderflow
  | unreduced _ => some .unreduced
  | missingConstructor _ | arityMismatch _ _ _ | unexpectedToken _ => none

/-- The fault of a formula that an error reports; other errors report none. -/
def Error.fault? : Error α → Option Fault
  | lex e => e.fault?
  | parse e => e.fault?
  | build e => e.fault?
  | _ => none

namespace Token

/-- The operators and functions that the standard constructors make nodes of. -/
inductive Applies : Token α → Prop
  | unary {t : Token α} (f : UnaryFn) (hid : t.id = f.id) (harity : t.arity = 1) : Applies t
  | binary {t : Token α} (f : BinaryFn) (hid : t.id = f.id) (harity : t.arity = 2) : Applies t
  | power {t : Token α} (hid : t.id = TokenId.powCall) (harity : t.arity = 2) : Applies t

/-- The tokens that are given out under the standard lexicon with declared names. -/
inductive Known (names : List String) : Token α → Prop
  | constant (c : Constant α) : Known names (.constant c)
  | variableName {name : String} (hname : name ∈ names) : Known names (.variableName name)
  | delimiter {t : Token α} {d : Char} (ht : t.delimiter? = some d) : Known names t
  | applied {t : Token α} (ht : t.Applies) : Known names t

theorem Applies.arity_ne_zero {t : Token α} (ht : t.Applies) : t.arity ≠ 0 := by
  cases ht with
  | unary f hid harity | binary f hid harity | power hid harity =>
    rw [harity]
    decide

theorem applies_minus : (Token.unaryOperator minus : Token α).Applies := .unary .neg rfl rfl

theorem applies_binaryOperator {s : Spelled BinaryOperator} (hs : s ∈ standardBinaryOperators) :
    (Token.binaryOperator s.token : Token α).Applies := by
  simp only [standardBinaryOperators, List.mem_cons, List.not_mem_nil, or_false] at hs
  rcases hs with rfl | rfl | rfl | rfl | rfl
  · exact .binary .pow rfl rfl
  · exact .binary .mul rfl rfl
  · exact .binary .div rfl rfl
  · exact .binary .add rfl rfl
  · exact .binary .sub rfl rfl

theorem applies_function {s : Spelled Function} (hs : s ∈ standardFunctions) :
    (Token.function s.token : Token α).Applies := by
  rcases token_of_mem_standardFunctions hs with ⟨f, hf⟩ | ⟨f, hf⟩
  · rw [hf]
    exact .unary f rfl rfl
  · rw [hf]
    cases f with
    | pow => exact .power rfl rfl
    | atan2 => exact .binary .atan2 rfl rfl

end Token

section Tokens

variable [Scalar α] {names : List String} {last : TokenId} {cs text : List Char} {t : Token α}

theorem Lexicon.Takes.known (h : (standard.withVariables names).Takes last cs t text) :
    t.Known names := by
  cases h with
  | delimiter ht hcs => exact .delimiter ht
  | unaryOperator h =>
    rw [(unaryOperator?_standard h).1]
    exact .applied Token.applies_minus
  | binaryOperator h => exact .applied (Token.applies_binaryOperator (binaryOperator?_standard h).1)
  | function h =>
    have hs := (callable?_isPrefixOf h).1
    rw [withVariables_functions] at hs
    exact .applied (Token.applies_function hs)
  | variableName h =>
    have hmem := mem_variableNames_withVariables.mp (List.mem_of_find?_eq_some h)
    exact .variableName (hmem.resolve_right List.not_mem_nil)
  | constant hn hc => exact .constant _

end Tokens

namespace Node

variable {names : List String} {bindings : String → Option β} {t : Token α}
  {stack : List (Node α β)} {ps : List (Token α)} {e : TreeError}

/-- The constructor of a token makes a node of as many operands as the token takes. -/
theorem exists_constructor (ht : t.Applies) :
    ∃ make : Constructor α β, Constructors.standard.get? t.id = some make ∧
      ∀ children, children.length = t.arity → ∃ a, make children = .ok a := by
  have hone (f : UnaryFn) (children : List (Node α β)) (h : children.length = 1) :
      ∃ a, Constructor.unary f children = .ok a := by
    obtain ⟨a, rfl⟩ := List.length_eq_one_iff.mp h
    exact ⟨_, rfl⟩
  have htwo (i : TokenId) (f : BinaryFn) (children : List (Node α β)) (h : children.length = 2) :
      ∃ a, Constructor.binary i f children = .ok a := by
    obtain ⟨a, b, rfl⟩ := List.length_eq_two.mp h
    exact ⟨_, rfl⟩
  cases ht with
  | unary f hid harity =>
    rw [hid, harity]
    exact ⟨_, Constructors.standard_get?_unaryFn f, hone f⟩
  | binary f hid harity =>
    rw [hid, harity]
    exact ⟨_, Constructors.standard_get?_binaryFn f, htwo f.id f⟩
  | power hid harity =>
    rw [hid, harity]
    exact ⟨_, Constructors.standard_get?_powCall, htwo _ .pow⟩

theorem reduce_error (ht : t.Applies) (h : reduce .standard t stack = .error e) :
    e = .build (.stackUnderflow t.id t.arity stack.length) := by
  obtain ⟨make, hget, hmake⟩ := exists_constructor (β := β) ht
  unfold reduce at h
  rw [hget] at h
  dsimp only at h
  split_ifs at h with hlength
  · exact (Except.error.inj h).symm
  · have hchildren : (stack.take t.arity).reverse.length = t.arity := by
      rw [List.length_reverse, List.length_take]
      omega
    obtain ⟨a, ha⟩ := hmake _ hchildren
    rw [ha] at h
    nomatch h

/-- With a binding for each name, a known token lacks at most operands. -/
theorem push_error (ht : t.Known names) (hnode : t.isNode = true)
    (hbound : ∀ n ∈ names, ∃ b, bindings n = some b)
    (h : push .standard bindings stack t = .error e) :
    e = .build (.stackUnderflow t.id t.arity stack.length) := by
  cases ht with
  | constant c => simp [push] at h
  | variableName hname =>
    obtain ⟨b, hb⟩ := hbound _ hname
    simp [push, hb] at h
  | delimiter ht =>
    cases t with
    | leftParen | rightParen | comma => exact Bool.noConfusion hnode
    | _ => simp [Token.delimiter?] at ht
  | applied ht =>
    cases t with
    | unaryOperator _ | binaryOperator _ | function _ => exact reduce_error ht h
    | _ => exact absurd rfl ht.arity_ne_zero

theorem foldlM_push_error (hps : ∀ t ∈ ps, t.Known names ∧ t.isNode = true)
    (hbound : ∀ n ∈ names, ∃ b, bindings n = some b)
    (h : ps.foldlM (push .standard bindings) stack = .error e) :
    ∃ i needed available, e = .build (.stackUnderflow i needed available) := by
  induction ps generalizing stack with
  | nil => nomatch h
  | cons t ps ih =>
    obtain ⟨⟨hknown, hnode⟩, hps⟩ := List.forall_mem_cons.mp hps
    rw [List.foldlM_cons] at h
    rcases bind_eq_error h with hpush | ⟨stack₁, -, h⟩
    · exact ⟨_, _, _, push_error hknown hnode hbound hpush⟩
    · exact ih hps h

/-- Building a tree of known tokens fails for too few or too many operands only. -/
theorem ofPostfix_fault (hps : ∀ t ∈ ps, t.Known names ∧ t.isNode = true)
    (hbound : ∀ n ∈ names, ∃ b, bindings n = some b)
    (h : ofPostfix .standard bindings ps = .error e) :
    ∃ d k, e = .build d ∧ d.fault? = some k := by
  rcases bind_eq_error h with hfold | ⟨stack, -, h⟩
  · obtain ⟨i, needed, available, rfl⟩ := foldlM_push_error hps hbound hfold
    exact ⟨_, _, rfl, rfl⟩
  · split at h
    · nomatch h
    · obtain rfl := Except.error.inj h
      exact ⟨_, _, rfl, rfl⟩

end Node

namespace Expression

variable [Scalar α] {names : List String} {bindings : String → Option β} {source : String}
  {e : Error α}

theorem compile_fault (hbound : ∀ n ∈ names, ∃ b, bindings n = some b)
    (h : compile (standard.withVariables names) bindings source = .error e) :
    (∃ k, e.fault? = some k) ∨ (∃ remaining, e = .lex (.endless remaining)) ∧ "" ∈ names ∧
      (standard.withVariables names).NeverEnds α TokenId.start source.toList := by
  unfold compile compileWith at h
  rcases bind_eq_error h with hlex | ⟨ts, hlex, h⟩
  · obtain ⟨d, hd, rfl⟩ := exists_of_mapError_eq_error hlex
    apply (lex_fault hd).imp_right
    rintro ⟨⟨remaining, rfl⟩, hnever⟩
    exact ⟨⟨remaining, rfl⟩, hnever⟩
  left
  have hreads := (lex_eq_ok_iff.mp (of_mapError_eq_ok hlex)).1
  rcases bind_eq_error h with hparse | ⟨ps, hparse, h⟩
  · obtain ⟨d, hd, rfl⟩ := exists_of_mapError_eq_error hparse
    rcases hreads.callsOpen.toPostfix_ends with ⟨⟨ps, hps⟩, -⟩ | ⟨hmismatched, -⟩
    · rw [hps] at hd
      nomatch hd
    · obtain rfl := Except.error.inj (hmismatched.symm.trans hd)
      exact ⟨_, rfl⟩
  have hps := of_mapError_eq_ok hparse
  have hknown := Shunting.toPostfix_made_of hps (hreads.forall_mem fun _ _ _ _ => Takes.known)
  have hnodes : ∀ t ∈ ps, t.Known names ∧ t.isNode = true :=
    fun t ht => ⟨hknown t ht, Shunting.toPostfix_isNode hps t ht⟩
  rcases bind_eq_error h with hbuild | ⟨root, -, h⟩
  · obtain ⟨d, hd, rfl⟩ := exists_of_mapError_eq_error hbuild
    obtain ⟨d, k, rfl, hk⟩ := Node.ofPostfix_fault hnodes hbound hd
    exact ⟨k, hk⟩
  · nomatch h

/-- Every fault can be made without any variable. -/
theorem exists_fault (bindings : String → Option β) (k : Fault) :
    ∃ source e, compile (α := α) standard bindings source = .error e ∧ e.fault? = some k := by
  cases k with
  | noMatch => exact ⟨"@", _, rfl, rfl⟩
  | disallowedAdjacency => exact ⟨"+", _, rfl, rfl⟩
  | missingCallParen => exact ⟨"sin", _, rfl, rfl⟩
  | unbalancedCall => exact ⟨"sin(", _, rfl, rfl⟩
  | arityMismatch => exact ⟨"sin(,)", _, rfl, rfl⟩
  | mismatchedParentheses => exact ⟨"(", _, rfl, rfl⟩
  | stackUnderflow => exact ⟨"-", _, rfl, rfl⟩
  | unreduced => exact ⟨"", _, rfl, rfl⟩

/-- With the standard operators, functions and constructors and a binding for each declared name,
the errors of compilation are exactly the faults of formulas. Lexing may be cut off besides, if the
empty name is declared, where no bound is enough for it. -/
theorem fault_of_compile (hbound : ∀ n ∈ names, ∃ b, bindings n = some b) :
    (∀ source (e : Error α),
      compile (standard.withVariables names) bindings source = .error e →
        (∃ k, e.fault? = some k) ∨
          (∃ remaining, e = .lex (.endless remaining)) ∧ "" ∈ names ∧
            (standard.withVariables names).NeverEnds α TokenId.start source.toList) ∧
      ∀ k, ∃ source, ∃ e : Error α,
        compile standard bindings source = .error e ∧ e.fault? = some k := by
  constructor
  · intro source e h
    exact compile_fault hbound h
  · intro k
    exact exists_fault bindings k

/-- The parenthesis of `2*(x` is never closed. -/
theorem fault_of_compile_unclosed :
    let bindings (_ : String) : Option Unit := some ()
    (∀ n ∈ ["x"], ∃ b, bindings n = some b) ∧ ∃ e : Error Double, ∃ k,
      compile (standard.withVariables ["x"]) bindings "2*(x" = .error e ∧ e.fault? = some k := by
  intro bindings
  have hbound : ∀ n ∈ ["x"], ∃ b, bindings n = some b := fun _ _ => ⟨(), rfl⟩
  have hcompile : compile (standard.withVariables ["x"]) bindings "2*(x" =
      .error (.parse .mismatchedParentheses : Error Double) := rfl
  rcases (fault_of_compile hbound).1 "2*(x" _ hcompile with ⟨k, hk⟩ | ⟨⟨remaining, hendless⟩, -⟩
  · exact ⟨hbound, _, k, hcompile, hk⟩
  · nomatch hendless

end Expression

end FormulaCalculus
