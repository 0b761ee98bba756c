import FormulaCalculus.Json.Reader
import FormulaCalculus.Model.Spec

/-!
The JSON form of a model description. It is written as an object, two blanks per level, without the
derivatives that are not supplied. It is read from an object, whose unknown members are ignored, or
from an array of the fields in their order.
-/

namespace FormulaCalculus

namespace ModelSpec

/-- A list of strings on lines of its own, inside an object. -/
def writeList (l : List String) : List Char :=
  let item (s : String) : List Char := "\n    ".toList ++ Json.quote s.toList
  if l.isEmpty then ['[', ']']
  else '[' :: (List.intercalate [','] (l.map item) ++ "\n  ]".toList)

/-- A member of the object, on a line of its own. -/
def writeMember (key : String) (value : List Char) : List Char :=
  "\n  ".toList ++ Json.quote key.toList ++ [':', ' '] ++ value

/-- The description as JSON. -/
def toJson (s : ModelSpec) : String :=
  let optional (key : String) (l : Option (List String)) : List (List Char) :=
    (l.map fun l => writeMember key (writeList l)).toList
  let members := writeMember "expression" (Json.quote s.expression.toList) ::
    writeMember "parameters" (writeList s.parameters) ::
    writeMember "constants" (writeList s.constants) ::
    (optional "derivatives" s.derivatives ++ optional "second_derivatives" s.secondDerivatives)
  String.ofList ('\x7b' :: (List.intercalate [','] members ++ ['\n', '\x7d']))

/-- A JSON string as text. -/
def text? : Json → Option String
  | .text (some cs) => some (String.ofList cs)
  | _ => none

/-- A JSON array of strings. -/
def list? : Json → Option (List String)
  | .array items => items.mapM text?
  | _ => none

/-- A list that may be given as null. -/
def optionalList? : Json → Option (Option (List String))
  | .null => some none
  | j => (list? j).map some

/-- The value of the member with the given key: nothing if the key is missing, an error if it
stands twice. -/
def member? (key : String) (members : List (JsonText × Json)) : Option (Option Json) :=
  match members.filter fun m => m.1 == some key.toList with
  | [] => some none
  | [m] => some (some m.2)
  | _ => none

/-- The value of a field that may be missing. -/
def readOr {τ : Type} (default : τ) (read : Json → Option τ) : Option Json → Option τ
  | none => some default
  | some j => read j

/-- Puts the fields together, each of which may be missing. -/
def ofFields (expression parameters constants derivatives secondDerivatives : Option Json) :
    Option ModelSpec := do
  return {
    expression := ← expression.bind text?
    parameters := ← parameters.bind list?
    constants := ← readOr [] list? constants
    derivatives := ← readOr none optionalList? derivatives
    secondDerivatives := ← readOr none optionalList? secondDerivatives }

/-- Reads a description from the members of an object, all of whose keys are texts. -/
def ofMembers? (members : List (JsonText × Json)) : Option ModelSpec := do
  if members.any fun m => m.1.isNone then none
  let expression ← member? "expression" members
  let parameters ← member? "parameters" members
  let constants ← member? "constants" members
  let derivatives ← member? "derivatives" members
  let secondDerivatives ← member? "second_derivatives" members
  ofFields expression parameters constants derivatives secondDerivatives

/-- Reads a description from a JSON value. -/
def ofJsonValue? : Json → Option ModelSpec
  | .object members => ofMembers? members
  | .array items =>
    if items.length > 5 then none
    else ofFields items[0]? items[1]? items[2]? items[3]? items[4]?
  | _ => none

/-- Reads a description from a JSON text. -/
def ofJson {α : Type} (source : String) : Except (Error α) ModelSpec :=
  match (Json.parse? source.toList).bind ofJsonValue? with
  | some s => .ok s
  | none => .error .json

end ModelSpec

end FormulaCalculus
