import Kirchhoff.Context
import Kirchhoff.Equation
import Kirchhoff.Expr.Canonical

/-!
# Integrals and derivatives step by step

An integral or derivative over time is written as a formula for one timestep. Each use
takes a fresh auxiliary, which holds what is needed of the step before, and a support
equation tells how the auxiliary is refreshed once the step is solved.

For an operand `e` and the timestep `ts`, with the auxiliary `a`:

* the integral is `a + e * ts`, and `a` is refreshed by `a == e * ts`;
* the derivative is `(e - a) / ts`, and `a` is refreshed by `a == (e - a) / ts`.
-/

namespace Kirchhoff

/-- The auxiliaries taken so far, and the equation that refreshes each of them. -/
structure Discretization (α : Type) where
  support : List (Equation α) := []
  auxiliaries : List (Quantity α) := []

namespace Discretization

variable {α : Type}

/-- No operator has been used. -/
def empty : Discretization α := {}

/-- The stem of the auxiliaries of integrals. -/
def integralStem : String := "idt"

/-- The stem of the auxiliaries of derivatives. -/
def derivativeStem : String := "ddt"

/-- Records an auxiliary with the right-hand side that refreshes it. -/
def record (d : Discretization α) (a : Symbol) (refreshed : Expr α) : Discretization α :=
  { support := d.support ++ [⟨.symbol a, refreshed⟩]
    auxiliaries := d.auxiliaries ++ [{ symbol := a }] }

variable [Scalar α]

/-- The integral of an operand over time. -/
def integral (d : Discretization α) (e : Expr α) :
    StateM (Context α) (Expr α × Discretization α) := do
  let a ← Context.freshSymbol integralStem
  let step := e * (← get).timestepExpr
  return (.symbol a + step, d.record a step)

/-- The derivative of an operand with respect to time. -/
def derivative (d : Discretization α) (e : Expr α) :
    StateM (Context α) (Expr α × Discretization α) := do
  let a ← Context.freshSymbol derivativeStem
  let rate := (e - .symbol a) / (← get).timestepExpr
  return (rate, d.record a rate)

end Discretization

end Kirchhoff
