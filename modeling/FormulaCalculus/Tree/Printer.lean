import FormulaCalculus.Constant.Printer
import FormulaCalculus.Tree.Basic

/-!
The two written forms of a tree: as a formula with every operation parenthesised, and as a list of
lines with the operands indented below their operation.
-/

namespace FormulaCalculus

namespace Node

variable {α β : Type} [Scalar α] [DecimalText α]

/-- The tree as a formula. A literal tensor shows its shape only. -/
def render : Node α β → String
  | constant c => c.render
  | tensor a => "tensor" ++ Shape.render a.shape
  | variableLeaf name _ => name
  | unary .neg a => "(-" ++ a.render ++ ")"
  | unary f a => f.name ++ "(" ++ a.render ++ ")"
  | binary f a b =>
    match f.symbol? with
    | some sign => "(" ++ a.render ++ sign ++ b.render ++ ")"
    | none => f.name ++ "(" ++ a.render ++ "," ++ b.render ++ ")"

/-- The line that stands for the topmost node. -/
def label : Node α β → String
  | constant c => "num : " ++ c.render
  | tensor a => "tensor : " ++ Shape.render a.shape
  | variableLeaf name _ => "var : " ++ name
  | unary .neg _ => "op:neg"
  | unary f _ => "func:" ++ f.name
  | binary .atan2 _ _ => "func:atan2"
  | binary f _ _ => "op:" ++ f.name

/-- The nodes with their depths, each before its operands. -/
def outline (depth : Nat) : Node α β → List (Nat × String)
  | unary f a => (depth, label (unary f a)) :: a.outline (depth + 1)
  | binary f a b =>
    (depth, label (binary f a b)) :: (a.outline (depth + 1) ++ b.outline (depth + 1))
  | leaf => [(depth, leaf.label)]

/-- One line per node, indented by two blanks for each level. -/
def renderLines (a : Node α β) : String :=
  String.join <| (a.outline 0).map fun (depth, line) =>
    String.ofList (List.replicate (2 * depth) ' ') ++ line ++ "\n"

end Node

end FormulaCalculus
