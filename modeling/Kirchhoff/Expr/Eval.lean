import Kirchhoff.Expr.Basic

/-!
# The value of an expression

A valuation reads symbols as numbers and function names as partial functions. An
expression has a value when every symbol in it has one and every power and call is
defined at the values of its operands. Sums are added from zero and products multiplied
from one, from left to right.
-/

namespace Kirchhoff

/-- The meaning of the symbols and function names in an expression. -/
structure Valuation (α : Type) where
  symbol : Symbol → Option α
  function : String → List α → Option α

/-- The valuation in which names stand for the elementary functions of one argument. -/
def Valuation.elementary {α : Type} [Scalar α] (symbol : Symbol → Option α) : Valuation α where
  symbol := symbol
  function
    | name, [x] => Scalar.function? name x
    | _, _ => none

namespace Expr

variable {α : Type} [Scalar α]

mutual

/-- The value of an expression, where it has one. -/
def eval (ρ : Valuation α) : Expr α → Option α
  | .number v => some v
  | .symbol s => ρ.symbol s
  | .add ts => do return (← evalAll ρ ts).foldl (· + ·) 0
  | .mul fs => do return (← evalAll ρ fs).foldl (· * ·) 1
  | .pow b e => do Scalar.power? (← eval ρ b) (← eval ρ e)
  | .call f args => do ρ.function f (← evalAll ρ args)

/-- The values of a list of expressions, where all of them have one. -/
def evalAll (ρ : Valuation α) : List (Expr α) → Option (List α)
  | [] => some []
  | e :: es => do return (← eval ρ e) :: (← evalAll ρ es)

end

end Expr

end Kirchhoff
