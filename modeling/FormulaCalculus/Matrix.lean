import FormulaCalculus.Error

/-!
Tables of derivatives: a matrix keeps one column per parameter, a cube one column per pair of
parameters, and every column has one entry per point.
-/

namespace FormulaCalculus

/-- A list with `n` entries. -/
structure Column (α : Type) (n : Nat) where
  entries : List α
  length_entries : entries.length = n

namespace Column

variable {α β γ : Type} {n : Nat}

def constant (n : Nat) (x : α) : Column α n := ⟨List.replicate n x, List.length_replicate⟩

def map (f : α → β) (c : Column α n) : Column β n :=
  ⟨c.entries.map f, by rw [List.length_map, c.length_entries]⟩

def zipWith (f : α → β → γ) (c : Column α n) (d : Column β n) : Column γ n :=
  ⟨List.zipWith f c.entries d.entries, by
    rw [List.length_zipWith, c.length_entries, d.length_entries, Nat.min_self]⟩

def get (c : Column α n) (i : Fin n) : α :=
  c.entries.get ⟨i.val, by rw [c.length_entries]; exact i.isLt⟩

end Column

/-- Columns of one length. -/
structure Matrix (α : Type) where
  rowCount : Nat
  columns : List (Column α rowCount)

namespace Matrix

variable {α : Type}

def columnCount (m : Matrix α) : Nat := m.columns.length

def rows (m : Matrix α) : List (List α) :=
  (List.finRange m.rowCount).map fun i => m.columns.map fun c => c.get i

/-- The columns from the given position on, if all of them are of one length. -/
def checkColumns {α : Type} (n : Nat) :
    Nat → List (List α) → Except (Error α) (List (Column α n))
  | _, [] => .ok []
  | j, c :: cs => do
    if h : c.length = n then return ⟨c, h⟩ :: (← checkColumns n (j + 1) cs)
    else throw (.dimensionMismatch (.column j c.length n))

/-- The matrix of equally long columns. -/
def ofColumns (n : Nat) (columns : List (List α)) : Except (Error α) (Matrix α) := do
  return ⟨n, ← checkColumns n 0 columns⟩

end Matrix

/-- A square arrangement of columns of one length. -/
structure Cube (α : Type) where
  pointCount : Nat
  columns : List (List (Column α pointCount))

namespace Cube

variable {α : Type}

/-- The entry of a triangle at a pair of positions, in either order. -/
def lookup {n : Nat} (triangle : List ((Nat × Nat) × Column α n)) (i j : Nat) :
    Option (Column α n) :=
  (triangle.find? fun e => e.1 == (i, j) || e.1 == (j, i)).map Prod.snd

/-- The symmetric cube with the columns of a triangle; `x` fills positions that it leaves out. -/
def ofTriangle (size pointCount : Nat) (x : α)
    (triangle : List ((Nat × Nat) × Column α pointCount)) : Cube α where
  pointCount := pointCount
  columns := (List.range size).map fun i => (List.range size).map fun j =>
    (lookup triangle i j).getD (.constant pointCount x)

/-- The number of positions on a side. -/
def size (c : Cube α) : Nat := c.columns.length

/-- The square of entries of each point. -/
def planes (c : Cube α) : List (List (List α)) :=
  (List.finRange c.pointCount).map fun p => c.columns.map fun row => row.map fun d => d.get p

end Cube

/-- The results of `f` at the numbers below `n`, or the first error. -/
def mapIndices {ε β : Type} (n : Nat) (f : Nat → Except ε β) : Except ε (List β) :=
  (List.range n).mapM f

end FormulaCalculus
