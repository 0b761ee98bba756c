import Mathlib.Data.List.Forall2
import FormulaCalculus.Model.SpecText
import FormulaCalculus.Proofs.Json.Writing

/-!
The written form of a model description is read back as the same description. The strings may hold
any characters. Derivatives that are not supplied have no member in the object and are read as not
supplied, while an empty list of them is written and read as an empty list.
-/

namespace FormulaCalculus

namespace ModelSpec

/-! ## Lists of strings -/

/-- The JSON value of a list of strings. -/
def texts (l : List String) : Json := .array (l.map fun s => .text (some s.toList))

theorem text?_text (s : String) : text? (.text (some s.toList)) = some s :=
  congrArg some String.ofList_toList

theorem list?_texts (l : List String) : list? (texts l) = some l := by
  change (l.map _).mapM text? = some l
  induction l with
  | nil => rfl
  | cons s l ih =>
    rw [List.map_cons, List.mapM_cons, text?_text, ih]
    rfl

theorem optionalList?_texts (l : List String) : optionalList? (texts l) = some (some l) :=
  congrArg (Option.map some) (list?_texts l)

theorem reads_writeList (l : List String) : Json.Reads (writeList l) (texts l) := by
  cases l with
  | nil => exact Json.reads_empty_array
  | cons s l =>
    have hitem (s : String) : Json.Reads ("\n    ".toList ++ Json.quote s.toList)
        (.text (some s.toList)) :=
      (Json.reads_quote s.toList).behind_blanks (by decide)
    have hitems : List.Forall₂ Json.Reads
        ((s :: l).map fun s => "\n    ".toList ++ Json.quote s.toList)
        ((s :: l).map fun s => .text (some s.toList)) :=
      List.forall₂_map_left_iff.mpr
        (List.forall₂_map_right_iff.mpr (List.forall₂_same.mpr fun s _ => hitem s))
    have hblank : Json.skipBlanks "\n  ".toList = [] := by decide
    exact Json.sequence_array.reads hitems (List.cons_ne_nil _ _) hblank

/-! ## Members -/

theorem isMember_writeMember {value : List Char} {j : Json} (key : String)
    (hvalue : Json.Reads value j) :
    Json.IsMember (writeMember key value) (some key.toList, j) := by
  have hspaced : Json.Reads ([' '] ++ value) j := hvalue.behind_blanks rfl
  have htext : writeMember key value =
      "\n  ".toList ++ (Json.quote key.toList ++ ':' :: ([' '] ++ value)) := by
    rw [writeMember]
    simp only [List.append_assoc, List.cons_append, List.nil_append]
  rw [htext]
  exact .intro (by decide) hspaced

/-- The members of the object that a description is written as. -/
def members (s : ModelSpec) : List (JsonText × Json) :=
  let optional (key : String) (l : Option (List String)) : List (JsonText × Json) :=
    (l.map fun l => (some key.toList, texts l)).toList
  (some "expression".toList, .text (some s.expression.toList)) ::
    (some "parameters".toList, texts s.parameters) ::
    (some "constants".toList, texts s.constants) ::
    (optional "derivatives" s.derivatives ++ optional "second_derivatives" s.secondDerivatives)

theorem isMember_optional (key : String) (l : Option (List String)) :
    List.Forall₂ Json.IsMember (l.map fun l => writeMember key (writeList l)).toList
      (l.map fun l => (some key.toList, texts l)).toList := by
  cases l with
  | none => exact .nil
  | some l => exact .cons (isMember_writeMember key (reads_writeList l)) .nil

/-- A description is written as the object of its members. -/
theorem reads_toJson (s : ModelSpec) : Json.Reads s.toJson.toList (.object s.members) := by
  have hexpression := isMember_writeMember "expression" (Json.reads_quote s.expression.toList)
  have hparameters := isMember_writeMember "parameters" (reads_writeList s.parameters)
  have hconstants := isMember_writeMember "constants" (reads_writeList s.constants)
  have hderivatives := isMember_optional "derivatives" s.derivatives
  have hsecond := isMember_optional "second_derivatives" s.secondDerivatives
  have hmembers := List.Forall₂.cons hexpression (.cons hparameters (.cons hconstants
    (List.rel_append hderivatives hsecond)))
  have hblank : Json.skipBlanks ['\n'] = [] := rfl
  rw [toJson, String.toList_ofList]
  exact Json.sequence_object.reads hmembers (List.cons_ne_nil _ _) hblank

/-- The members are read as the description, however many of the derivatives are supplied. -/
theorem ofMembers?_members (s : ModelSpec) : ofMembers? s.members = some s := by
  obtain ⟨expression, parameters, constants, derivatives, secondDerivatives⟩ := s
  cases derivatives <;> cases secondDerivatives <;>
    simp [ofMembers?, members, member?, ofFields, readOr, text?_text, list?_texts,
      optionalList?_texts]

/-- A description is written as the JSON object of its fields, without the derivatives that are not
supplied, and reading the text gives the description back. -/
theorem ofJson_toJson {α : Type} (s : ModelSpec) :
    Json.parse? s.toJson.toList = some (.object s.members) ∧
      (ofJson s.toJson : Except (Error α) ModelSpec) = .ok s := by
  have hparse := Json.parse?_eq_some (reads_toJson s)
  refine ⟨hparse, ?_⟩
  rw [ofJson, hparse, Option.bind_some, ofJsonValue?, ofMembers?_members]

end ModelSpec

end FormulaCalculus
