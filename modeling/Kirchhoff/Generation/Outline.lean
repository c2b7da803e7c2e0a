import Kirchhoff.Synthesis.System
import Kirchhoff.Template.Basic

/-!
# Outlines of generated classes

The facts from which a class is generated: what it declares, what it assigns and, where it
solves the linear system itself, the matrix. `Outline.scope` gives them the names by which
templates know them.
-/

namespace Kirchhoff

/-- The rows of a linear system with a number of columns. -/
structure Matrix (α : Type) where
  rows : List (LinearRow α)
  columns : Nat

namespace Matrix

variable {α : Type}

/-- There are as many rows as columns. -/
def isSquare (m : Matrix α) : Bool := m.rows.length == m.columns

/-- The coefficients that are not zero, with their rows and columns, row by row. -/
def entries [Zero α] [BEq α] (m : Matrix α) : List (Nat × Nat × Expr α) :=
  m.rows.zipIdx.flatMap fun (row, i) =>
    (row.coefficients.zipIdx.filter fun (e, _) => !e.isZero).map fun (e, j) => (i, j, e)

end Matrix

/-- The matrix of a system after a substitution. -/
def System.matrix {α : Type} [Scalar α] (s : System α) (σ : Substitution α) :
    Except (SolverError α) (Matrix α) := do
  return ⟨← s.rows σ, s.unknowns.length⟩

/-- What a generated class is made from. -/
structure Outline (α : Type) where
  name : String
  /-- The number of the timestep, unless it is a symbol. -/
  timestep : Option α
  edges : List String
  parameters : List String
  auxiliaries : List String
  /-- The closed forms of the unknowns. -/
  assignments : List (Equation α)
  /-- How the auxiliaries are refreshed. -/
  support : List (Equation α)
  unknowns : List Symbol
  matrix : Option (Matrix α)

namespace Outline

variable {α : Type}

/-- The variables of the class: edges, parameters and auxiliaries. -/
def members (o : Outline α) : List String := o.edges ++ o.parameters ++ o.auxiliaries

/-- Names in the order of their characters. -/
def sortNames (names : List String) : List String := names.mergeSort fun s t => s ≤ t

/-- The outline of a class for a system and its solution. Parameters that have a number are
not declared. -/
def ofSystem [Zero α] [BEq α] (name : String) (s : System α) (solution : Solution α)
    (matrix : Option (Matrix α)) : Outline α where
  name
  timestep := s.timestep.number.filter (· != 0)
  edges := sortNames (s.topology.edges.map (·.name))
  parameters := sortNames ((s.parameters.filter (!·.isReplaced)).map (·.name))
  auxiliaries := sortNames (solution.auxiliaries.map (·.name))
  assignments := solution.equations
  support := solution.support
  unknowns := s.unknowns
  matrix

/-! ### Names for templates -/

open Template (Value)

/-- An assignment, with the fields `lhs` and `rhs`. -/
def assignmentRecord [Scalar α] [Numeral α] (q : Equation α) : Value :=
  .record [("lhs", .text q.lhs.text), ("rhs", .text q.rhs.text)]

/-- A coefficient, with the fields `row`, `col` and `value`. -/
def entryRecord [Scalar α] [Numeral α] : Nat × Nat × Expr α → Value
  | (row, col, e) => .record [("row", .count row), ("col", .count col), ("value", .text e.text)]

/-- The matrix, with the fields `rows`, `cols`, `square`, `entries` and `b`. -/
def matrixRecord [Scalar α] [Numeral α] (m : Matrix α) : Value :=
  .record [("rows", .count m.rows.length), ("cols", .count m.columns),
    ("square", .bool m.isSquare), ("entries", .list (m.entries.map entryRecord)),
    ("b", .texts (m.rows.map (·.rhs.text)))]

/-- A value that may be left open. -/
def orAbsent {β : Type} (f : β → Value) : Option β → Value
  | some x => f x
  | none => .absent

/-- The names by which templates know an outline, and those of functions. -/
def scope (o : Outline Float) : Template.Scope := [
  ("name", .text o.name),
  ("timestep", orAbsent .real o.timestep),
  ("edges", .texts o.edges),
  ("parameters", .texts o.parameters),
  ("support_values", .texts o.auxiliaries),
  ("members", .texts o.members),
  ("assignments", .list (o.assignments.map assignmentRecord)),
  ("support", .list (o.support.map assignmentRecord)),
  ("unknowns", .texts (o.unknowns.map (·.name))),
  ("matrix", orAbsent matrixRecord o.matrix)] ++ Template.functions

end Outline

end Kirchhoff
