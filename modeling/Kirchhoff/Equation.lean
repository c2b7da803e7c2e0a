import Kirchhoff.Expr.Print
import Kirchhoff.Expr.Eval

/-!
# Equations

An equation sets two expressions equal. Its residual, the difference of its sides, is zero
whenever the equation holds.
-/

namespace Kirchhoff

/-- The equality of two expressions. -/
structure Equation (α : Type) where
  lhs : Expr α
  rhs : Expr α

namespace Equation

variable {α : Type}

/-- The left side less the right side. -/
def residual [Scalar α] (q : Equation α) : Expr α := q.lhs - q.rhs

/-- The symbol stands in the equation. -/
def mentions (q : Equation α) (s : Symbol) : Bool := q.lhs.mentions s || q.rhs.mentions s

/-- The equation holds: both sides have a value, and it is the same. -/
def Holds [Scalar α] (ρ : Valuation α) (q : Equation α) : Prop :=
  ∃ v, q.lhs.eval ρ = some v ∧ q.rhs.eval ρ = some v

/-- The text of an equation. -/
def text [Scalar α] [Numeral α] (q : Equation α) : String := q.lhs.text ++ " == " ++ q.rhs.text

instance [Scalar α] [Numeral α] : ToString (Equation α) := ⟨text⟩

end Equation

end Kirchhoff
