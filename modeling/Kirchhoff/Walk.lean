import Kirchhoff.Equation

/-!
# Walking through equations

A walk passes every node of an expression twice: it enters the node before its operands,
from left to right, and leaves it after them. `Equation.walk` lists what is met on the way.
`Expr.transform` replaces every node when it is left, so the replacement sees operands that
are already replaced; `Equation.transformM` does the same with an effect and also tells when
a node is entered.

An equation is supported in a system when no function is called in it.
-/

namespace Kirchhoff

/-- What a walk meets. -/
inductive Event (α : Type) where
  | enterEquation (equation : Equation α)
  | exitEquation (equation : Equation α)
  | enterExpr (expr : Expr α)
  | exitExpr (expr : Expr α)
  | meetSymbol (symbol : Symbol)
  | meetCall (function : String) (args : List (Expr α))

/-! ### Looking -/

variable {α : Type}

mutual

/-- The events of a walk through an expression. -/
def Expr.walk : Expr α → List (Event α)
  | .number v => [.enterExpr (.number v), .exitExpr (.number v)]
  | .symbol s => [.enterExpr (.symbol s), .meetSymbol s, .exitExpr (.symbol s)]
  | .add ts => .enterExpr (.add ts) :: Expr.walkAll ts ++ [.exitExpr (.add ts)]
  | .mul fs => .enterExpr (.mul fs) :: Expr.walkAll fs ++ [.exitExpr (.mul fs)]
  | .pow b e => .enterExpr (.pow b e) :: (Expr.walk b ++ Expr.walk e) ++ [.exitExpr (.pow b e)]
  | .call f args =>
    .enterExpr (.call f args) :: .meetCall f args :: Expr.walkAll args
      ++ [.exitExpr (.call f args)]

/-- The events of a walk through one expression after the other. -/
def Expr.walkAll : List (Expr α) → List (Event α)
  | [] => []
  | e :: es => Expr.walk e ++ Expr.walkAll es

end

/-- The events of a walk through an equation, left side first. -/
def Equation.walk (q : Equation α) : List (Event α) :=
  .enterEquation q :: (q.lhs.walk ++ q.rhs.walk) ++ [.exitEquation q]

/-- The function called at an event. -/
def Event.function? : Event α → Option String
  | .meetCall f _ => some f
  | _ => none

/-- The functions called in an equation, in the order of the walk. -/
def Equation.unsupported (q : Equation α) : List String := q.walk.filterMap Event.function?

/-- The equation calls no function. -/
def Equation.isSupported (q : Equation α) : Bool := q.unsupported.isEmpty

/-! ### Replacing -/

mutual

/-- Replaces every node by `exit`, operands first. -/
def Expr.transform (exit : Expr α → Expr α) : Expr α → Expr α
  | .number v => exit (.number v)
  | .symbol s => exit (.symbol s)
  | .add ts => exit (.add (Expr.transformAll exit ts))
  | .mul fs => exit (.mul (Expr.transformAll exit fs))
  | .pow b e => exit (.pow (Expr.transform exit b) (Expr.transform exit e))
  | .call f args => exit (.call f (Expr.transformAll exit args))

/-- Replaces every node of each expression in a list. -/
def Expr.transformAll (exit : Expr α → Expr α) : List (Expr α) → List (Expr α)
  | [] => []
  | e :: es => Expr.transform exit e :: Expr.transformAll exit es

end

/-- Replaces every node of both sides. -/
def Equation.transform (exit : Expr α → Expr α) (q : Equation α) : Equation α :=
  ⟨q.lhs.transform exit, q.rhs.transform exit⟩

/-- What a walk with effects does at each node. -/
structure Walker (m : Type → Type) (α : Type) where
  enterEquation : Equation α → m Unit
  exitEquation : Equation α → m (Equation α)
  enterExpr : Expr α → m Unit
  exitExpr : Expr α → m (Expr α)

section

variable {m : Type → Type} [Monad m]

mutual

/-- Replaces every node with effects, operands first. -/
def Expr.transformM (w : Walker m α) : Expr α → m (Expr α)
  | .number v => do
    w.enterExpr (.number v)
    w.exitExpr (.number v)
  | .symbol s => do
    w.enterExpr (.symbol s)
    w.exitExpr (.symbol s)
  | .add ts => do
    w.enterExpr (.add ts)
    w.exitExpr (.add (← Expr.transformAllM w ts))
  | .mul fs => do
    w.enterExpr (.mul fs)
    w.exitExpr (.mul (← Expr.transformAllM w fs))
  | .pow b e => do
    w.enterExpr (.pow b e)
    w.exitExpr (.pow (← Expr.transformM w b) (← Expr.transformM w e))
  | .call f args => do
    w.enterExpr (.call f args)
    w.exitExpr (.call f (← Expr.transformAllM w args))

/-- Replaces every node of each expression in a list, with effects. -/
def Expr.transformAllM (w : Walker m α) : List (Expr α) → m (List (Expr α))
  | [] => pure []
  | e :: es => do return (← Expr.transformM w e) :: (← Expr.transformAllM w es)

end

/-- Replaces every node of both sides and then the equation, with effects. -/
def Equation.transformM (w : Walker m α) (q : Equation α) : m (Equation α) := do
  w.enterEquation q
  let lhs ← q.lhs.transformM w
  let rhs ← q.rhs.transformM w
  w.exitEquation ⟨lhs, rhs⟩

end

end Kirchhoff
