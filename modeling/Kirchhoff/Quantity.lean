import Kirchhoff.Expr.Basic

/-!
# Quantities

A quantity is a symbol that may also have a number: a parameter of a circuit, the timestep,
or an auxiliary. In formulas it stands for its number when it has one and for its symbol
otherwise, so one model can be written down with symbols or with constants.
-/

namespace Kirchhoff

/-- A named quantity, with its number once one is set. -/
structure Quantity (α : Type) where
  symbol : Symbol
  number : Option α := none

namespace Quantity

variable {α : Type}

/-- The name of the quantity. -/
def name (q : Quantity α) : String := q.symbol.name

/-- The number of the quantity, zero while none is set. -/
def value [Zero α] (q : Quantity α) : α := q.number.getD 0

/-- The quantity stands for its number in formulas. -/
def isReplaced (q : Quantity α) : Bool := q.number.isSome

/-- The quantity with a number. -/
def withValue (q : Quantity α) (v : α) : Quantity α := { q with number := some v }

/-- What the quantity stands for in a formula. -/
def expr (q : Quantity α) : Expr α :=
  match q.number with
  | some v => .number v
  | none => .symbol q.symbol

/-- Quantities are the same when their symbols are. -/
instance : BEq (Quantity α) := ⟨fun p q => p.symbol == q.symbol⟩

end Quantity

end Kirchhoff
