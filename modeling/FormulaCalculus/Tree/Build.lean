import FormulaCalculus.Token.Basic
import FormulaCalculus.Tree.Basic

/-!
Building a tree from tokens in postfix order. Operands are put on a stack; an operator or function
takes as many trees as it has operands and puts back the tree that the constructor for its id
makes of them.
-/

namespace FormulaCalculus

inductive BuildError where
  | missingConstructor (id : TokenId)
  | stackUnderflow (id : TokenId) (needed available : Nat)
  | arityMismatch (id : TokenId) (expected found : Nat)
  | unreduced (remaining : Nat)
  | unexpectedToken (id : TokenId)
  deriving DecidableEq

inductive BindingError where
  | unboundVariable (name : String)
  deriving DecidableEq

/-- What can go wrong while a tree is built. -/
inductive TreeError where
  | build (e : BuildError)
  | binding (e : BindingError)
  deriving DecidableEq

/-- Makes a tree of its operands, the leftmost first. -/
abbrev Constructor (α β : Type) := List (Node α β) → Except BuildError (Node α β)

namespace Constructor

variable {α β : Type}

/-- Applies a function of one operand. -/
def unary (f : UnaryFn) : Constructor α β
  | [a] => .ok (.unary f a)
  | children => .error (.arityMismatch f.id 1 children.length)

/-- Applies a function of two operands; the id is the one it is registered under. -/
def binary (id : TokenId) (f : BinaryFn) : Constructor α β
  | [a, b] => .ok (.binary f a b)
  | children => .error (.arityMismatch id 2 children.length)

end Constructor

/-- The constructors of the operators and functions, by id. -/
structure Constructors (α β : Type) where
  entries : List (TokenId × Constructor α β)

namespace Constructors

variable {α β : Type}

def empty : Constructors α β := ⟨[]⟩

/-- Registers a constructor in place of any constructor of the same id. -/
def register (id : TokenId) (make : Constructor α β) (m : Constructors α β) : Constructors α β :=
  ⟨(id, make) :: m.entries.filter fun e => e.1 != id⟩

def get? (m : Constructors α β) (id : TokenId) : Option (Constructor α β) :=
  (m.entries.find? fun e => e.1 == id).map Prod.snd

def contains (m : Constructors α β) (id : TokenId) : Bool := (m.get? id).isSome

/-- The registered ids in increasing order. -/
def ids (m : Constructors α β) : List TokenId := (m.entries.map Prod.fst).mergeSort

/-- The constructors of all functions of one and two operands. The power has two ids. -/
def standard : Constructors α β :=
  let unary := UnaryFn.all.map fun f => (f.id, Constructor.unary f)
  let binary := BinaryFn.all.map fun f => (f.id, Constructor.binary f.id f)
  ⟨unary ++ binary ++ [(TokenId.powCall, Constructor.binary TokenId.powCall .pow)]⟩

/-- A one-line account of the registered ids. -/
def summary (m : Constructors α β) : String :=
  "NodeConstructorMap \x7b ids: [" ++ ", ".intercalate (m.ids.map fun i => toString i) ++ "] \x7d"

end Constructors

/-- The stack with one tree in place of the operands of an operator or function. -/
def Node.reduce {α β : Type} (m : Constructors α β) (token : Token α) (stack : List (Node α β)) :
    Except TreeError (List (Node α β)) :=
  match m.get? token.id with
  | none => .error (.build (.missingConstructor token.id))
  | some make =>
    if stack.length < token.arity then
      .error (.build (.stackUnderflow token.id token.arity stack.length))
    else
      match make (stack.take token.arity).reverse with
      | .ok a => .ok (a :: stack.drop token.arity)
      | .error e => .error (.build e)

/-- The stack, topmost first, after one token. -/
def Node.push {α β : Type} (m : Constructors α β) (bindings : String → Option β)
    (stack : List (Node α β)) (token : Token α) : Except TreeError (List (Node α β)) :=
  match token with
  | .constant c => .ok (.constant c :: stack)
  | .variableName name =>
    match bindings name with
    | some b => .ok (.variableLeaf name b :: stack)
    | none => .error (.binding (.unboundVariable name))
  | .unaryOperator _ | .binaryOperator _ | .function _ => Node.reduce m token stack
  | _ => .error (.build (.unexpectedToken token.id))

/-- The tree of a formula in postfix order. -/
def Node.ofPostfix {α β : Type} (m : Constructors α β) (bindings : String → Option β)
    (tokens : List (Token α)) : Except TreeError (Node α β) := do
  match ← tokens.foldlM (Node.push m bindings) [] with
  | [root] => return root
  | stack => throw (.build (.unreduced stack.length))

end FormulaCalculus
