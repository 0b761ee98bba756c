import FormulaCalculus.Model.Basic

/-!
The records of what the library does: which tokens it reads, how large its trees are, and which
supplied formulas it uses in place of its own. The records of a piece of work that fails end where
it failed.
-/

namespace FormulaCalculus

inductive Level where
  | trace | debug | warn
  deriving DecidableEq

def Level.name : Level → String
  | trace => "TRACE"
  | debug => "DEBUG"
  | warn => "WARN"

structure Record where
  level : Level
  text : String
  deriving DecidableEq

/-- The record as one line. -/
def Record.render (r : Record) : String := r.level.name ++ " " ++ r.text

namespace Journal

def trace (text : String) : Record := ⟨.trace, text⟩

def debug (text : String) : Record := ⟨.debug, text⟩

def warn (text : String) : Record := ⟨.warn, text⟩

/-- The number of bytes of a text. -/
def byteLength (cs : List Char) : Nat := cs.foldl (fun n c => n + c.utf8Size) 0

section

variable {α : Type}

/-- One record per lexeme, with the place in bytes where its text starts. -/
def ofLexemes (offset : Nat) : List (Lexeme α) → List Record
  | [] => []
  | x :: xs =>
    let place := offset + byteLength x.blanks
    trace ("lexed token id " ++ toString x.token.id ++ " at offset " ++ toString place) ::
      ofLexemes (place + byteLength x.text) xs

def ofScan (source : String) (s : Scan α) : List Record :=
  ofLexemes 0 s.lexemes ++ match s.ending with
    | .ok _ =>
      [debug ("lexed " ++ toString s.lexemes.length ++ " tokens from '" ++ source ++ "'")]
    | .error _ => []

def ofPostfix (tokens : List (Token α)) : List Record :=
  match Shunting.initial.run tokens with
  | .error _ => []
  | .ok s =>
    (s.waiting.map fun t => trace ("draining operator id " ++ toString t.id)) ++ match s.finish with
      | .ok output => [debug ("shunted into " ++ toString output.length ++ " postfix tokens")]
      | .error _ => []

def ofTree {β : Type} (root : Node α β) : List Record :=
  [debug ("built expression tree with " ++ toString root.size ++ " nodes")]

end

section

variable {α β : Type} [Scalar α]

/-- The records of reading a formula into postfix order. -/
def ofShunt (l : Lexicon) (source : String) : List Record :=
  let s : Scan α := l.scan source
  ofScan source s ++ match (l.lex source : Except LexError (List (Token α))) with
    | .ok tokens => ofPostfix tokens
    | .error _ => []

/-- The records of compiling a formula. -/
def ofCompile (m : Constructors α β) (l : Lexicon) (bindings : String → Option β)
    (source : String) : List Record :=
  ofShunt (α := α) l source ++ match Expression.compileWith m l bindings source with
    | .ok e =>
      ofTree e.root ++
        [debug ("compiled '" ++ source ++ "' into " ++ toString e.root.size ++ " nodes")]
    | .error _ => []

variable [DecimalText α]

/-- The records of deriving an expression. -/
def ofDerivative (e : Expression α β) (wrt : String) : List Record :=
  match e.derivative wrt with
  | .ok d =>
    [debug ("derivative of '" ++ e.source ++ "' with respect to '" ++ wrt ++ "' has " ++
      toString d.root.size ++ " nodes")]
  | .error _ => []

omit [DecimalText α] in
/-- The records of pieces of work done one after the other, up to the first that fails. -/
def untilFailure {τ : Type} (work : List (List Record × Except (Error α) τ)) : List Record :=
  match work with
  | [] => []
  | (records, .ok _) :: rest => records ++ untilFailure rest
  | (records, .error _) :: _ => records

omit [DecimalText α] in
/-- The records of compiling a formula of a model. -/
def ofModelFormula (spec : ModelSpec) (source : String) : List Record :=
  ofCompile (α := α) .standard (Model.lexicon spec) (Model.binding spec) source

/-- The records of the first derivatives of a model. -/
def ofDerivatives (spec : ModelSpec) (value : StoredExpression α) : List Record :=
  match spec.derivatives with
  | some sources =>
    untilFailure <| (spec.parameters.zip sources).map fun (name, source) =>
      (warn ("using supplied derivative '" ++ source ++ "' for parameter '" ++ name ++
          "' instead of the symbolic one") :: ofModelFormula (α := α) spec source,
        Model.compileIn (α := α) spec source)
  | none =>
    untilFailure <| spec.parameters.map fun name => (ofDerivative value name, value.derivative name)

omit [DecimalText α] in
/-- The records of the second derivatives of a model. -/
def ofCurvatures (spec : ModelSpec) : List Record :=
  match spec.secondDerivatives with
  | some sources =>
    warn ("using " ++ toString sources.length ++ " supplied second derivative expressions") ::
      untilFailure (sources.map fun source =>
        (ofModelFormula (α := α) spec source, Model.compileIn (α := α) spec source))
  | none => []

/-- The records of compiling a model. -/
def ofModel (spec : ModelSpec) : List Record :=
  match (spec.validate : Except (Error α) Unit) with
  | .error _ => []
  | .ok _ =>
    ofModelFormula (α := α) spec spec.expression ++
      match (Model.compileIn spec spec.expression : Except (Error α) (StoredExpression α)) with
      | .error _ => []
      | .ok value =>
        ofDerivatives spec value ++ match Model.compileDerivatives spec value with
          | .error _ => []
          | .ok (derivatives, _) =>
            ofCurvatures (α := α) spec ++ match Model.compileCurvatures spec derivatives with
              | .error _ => []
              | .ok _ =>
                [debug ("compiled model '" ++ spec.expression ++ "' with " ++
                  toString spec.parameters.length ++ " parameters and " ++
                  toString spec.constants.length ++ " constants")]

end

end Journal

end FormulaCalculus
