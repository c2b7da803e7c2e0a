import Kirchhoff.Network.Basic
import Kirchhoff.Quantity
import Kirchhoff.Symbol.Labels
import Kirchhoff.Symbol.Table
import Kirchhoff.Decimal.Layout

/-!
# The context of a synthesis

A context holds what several syntheses share: the symbol table, the labels issued for
auxiliary symbols and the timestep. Models that are synthesized in one context have equal
symbols for equal names. A reset forgets names and labels and keeps the timestep's number.

A timestep of zero, or none, means that the timestep stays a symbol in formulas.
-/

namespace Kirchhoff

/-- What can be wrong with the numbers and names that a user supplies. -/
inductive InputError (α : Type) where
  /-- An assignment has no name, or no equals sign. -/
  | invalidAssignment (text : String)
  /-- The value that is assigned to a name is not a number. -/
  | invalidNumber (name value : String)
  /-- A name that is not interned. -/
  | unknownSymbol (name : String)
  /-- A timestep that is negative, infinite or undefined. -/
  | invalidTimestep (value : α)

/-- The report of an input error. -/
def InputError.message : InputError Float → String
  | .invalidAssignment text => "Invalid assignment '" ++ text ++ "', expected NAME=VALUE"
  | .invalidNumber name value => "Invalid number '" ++ value ++ "' for '" ++ name ++ "'"
  | .unknownSymbol name => "Unknown symbol '" ++ name ++ "'"
  | .invalidTimestep value =>
    "Timestep must be finite and non-negative, got " ++ Decimal.Layout.plain.text value

/-- The state that syntheses share. -/
structure Context (α : Type) where
  symbols : SymbolTable
  labels : Labels
  timestep : Quantity α

namespace Context

variable {α : Type}

/-- The name of the timestep. -/
def timestepName : String := "ts"

/-- A context in which only the timestep is interned, and has no number. -/
def new : Context α :=
  let (ts, symbols) := SymbolTable.empty.intern timestepName
  { symbols, labels := .empty, timestep := { symbol := ts } }

/-- The symbol of a name, if it is interned. -/
def lookup (c : Context α) (name : String) : Option Symbol := c.symbols.get? name

/-- The context with a number for its timestep. -/
def withTimestep [Scalar α] (c : Context α) (dt : α) : Except (InputError α) (Context α) :=
  if !Scalar.isFinite dt || Scalar.isNegative dt then .error (.invalidTimestep dt)
  else .ok { c with timestep := c.timestep.withValue dt }

/-- The timestep in formulas: its number, or its symbol when the number is missing or
zero. -/
def timestepExpr [Scalar α] (c : Context α) : Expr α :=
  match c.timestep.number with
  | some dt => if dt != 0 then .number dt else .symbol c.timestep.symbol
  | none => .symbol c.timestep.symbol

/-- Forgets all symbols and labels. The timestep is interned again and keeps its number. -/
def reset (c : Context α) : Context α :=
  let (ts, symbols) := c.symbols.clear.intern timestepName
  { symbols, labels := c.labels.clear, timestep := ⟨ts, c.timestep.number⟩ }

/-! ### Giving out symbols -/

/-- The symbol of a name, which is interned if it was not. -/
def symbol (name : String) : StateM (Context α) Symbol := fun c =>
  let (s, symbols) := c.symbols.intern name
  (s, { c with symbols })

/-- A symbol whose name is a label of the stem, neither issued nor interned before. -/
def freshSymbol (stem : String) : StateM (Context α) Symbol := fun c =>
  let (label, labels) := c.labels.fresh stem (c.symbols.symbols.map (·.name))
  symbol label { c with labels }

/-- The symbol of the potential across an edge. -/
def potential (e : Edge) : StateM (Context α) Symbol := symbol (e.name ++ ".pot")

/-- The symbol of the flow through an edge. -/
def flow (e : Edge) : StateM (Context α) Symbol := symbol (e.name ++ ".flw")

end Context

end Kirchhoff
