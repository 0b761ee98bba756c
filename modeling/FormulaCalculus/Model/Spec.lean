import FormulaCalculus.Error

/-!
Descriptions of models: a formula over parameters and constants, and optionally formulas for its
derivatives.
-/

namespace FormulaCalculus

structure ModelSpec where
  expression : String
  /-- The variables that derivatives are taken of, in this order. -/
  parameters : List String
  /-- The other variables. -/
  constants : List String
  /-- One formula per parameter. -/
  derivatives : Option (List String)
  /-- One formula per pair of parameters whose first is not behind its second, by rows. -/
  secondDerivatives : Option (List String)
  deriving DecidableEq

namespace ModelSpec

/-- Parameters, then constants. -/
def variableNames (s : ModelSpec) : List String := s.parameters ++ s.constants

/-- The first name that already stands before it. -/
def firstRepeated (seen : List String) : List String → Option String
  | [] => none
  | name :: rest => if seen.contains name then some name else firstRepeated (name :: seen) rest

/-- The number of pairs of `n` parameters whose first is not behind its second. -/
def pairCount (n : Nat) : Nat := n * (n + 1) / 2

/-- Checks that there are parameters, that no name is declared twice, and that supplied
derivatives are as many as needed. -/
def validate {α : Type} (s : ModelSpec) : Except (Error α) Unit :=
  let n := s.parameters.length
  if s.parameters.isEmpty then .error (.invalidInput .noParameter)
  else match firstRepeated [] s.variableNames with
    | some name => .error (.invalidInput (.declaredTwice name))
    | none =>
      match s.derivatives.filter fun l => l.length != n with
      | some l => .error (.dimensionMismatch (.derivatives n l.length))
      | none =>
        match s.secondDerivatives.filter fun l => l.length != pairCount n with
        | some l => .error (.dimensionMismatch (.secondDerivatives (pairCount n) l.length))
        | none => .ok ()

end ModelSpec

end FormulaCalculus
