import Kirchhoff.Equation

/-!
# Linear systems

A list of equations is brought into the form `A x = b`, one row for each equation and one
column for each unknown. The entries are expressions in the other symbols. The residual of
an equation is taken apart term by term (`Expr.linearForm?`): a product may depend on the
unknowns in one factor only, and an unknown may stand neither in a power nor in a call.
-/

namespace Kirchhoff

/-- Why a system of equations has no solution in closed form. -/
inductive SolverError (α : Type) where
  /-- The equation at a position is not linear. -/
  | nonLinear (index : Nat) (equation : Equation α)
  /-- No equation is left that determines an unknown. -/
  | singular (unknown : Symbol)
  /-- The equation at a position contradicts the others. -/
  | inconsistent (index : Nat) (residual : Expr α)

/-- The report of a solver error. -/
def SolverError.message {α : Type} [Scalar α] [Numeral α] : SolverError α → String
  | .nonLinear i q => "Equation " ++ i.repr ++ " is not linear in the unknowns: " ++ q.text
  | .singular s => "System is singular: no equation determines '" ++ s.name ++ "'"
  | .inconsistent i e =>
    "System is inconsistent: equation " ++ i.repr ++ " reduces to " ++ e.text ++ " == 0.0"

/-- Resolves each unknown to an equation with the unknown on its left, in order. -/
abbrev Solver (α : Type) :=
  List (Equation α) → List Symbol → Except (SolverError α) (List (Equation α))

variable {α : Type} [Scalar α]

/-! ### Linear forms -/

/-- A linear combination of unknowns, given by their positions, and a constant. -/
structure LinearForm (α : Type) where
  coefficients : List (Nat × Expr α)
  constant : Expr α

namespace LinearForm

/-- The form without unknowns. -/
def ofConstant (e : Expr α) : LinearForm α := ⟨[], e⟩

/-- The form of one unknown. -/
def ofUnknown (j : Nat) : LinearForm α := ⟨[(j, .number 1)], .number 0⟩

/-- Adds to the coefficient at a position, which is zero where there is none. -/
def addCoefficient (j : Nat) (c : Expr α) : List (Nat × Expr α) → List (Nat × Expr α)
  | [] => [(j, .number 0 + c)]
  | (k, d) :: rest => if k = j then (k, d + c) :: rest else (k, d) :: addCoefficient j c rest

/-- The sum of two forms. -/
def add (f g : LinearForm α) : LinearForm α where
  coefficients := g.coefficients.foldl (fun cs (j, c) => addCoefficient j c cs) f.coefficients
  constant := f.constant + g.constant

/-- A form multiplied by an expression. -/
def scale (f : LinearForm α) (factor : Expr α) : LinearForm α where
  coefficients := f.coefficients.map fun (j, c) => (j, c * factor)
  constant := f.constant * factor

/-- The coefficient at a position. -/
def coefficient (f : LinearForm α) (j : Nat) : Expr α :=
  (f.coefficients.lookup j).getD (.number 0)

end LinearForm

/-- The position of an unknown. The last one counts when it is listed twice. -/
def unknownIndex? (unknowns : List Symbol) (s : Symbol) : Option Nat :=
  (unknowns.zipIdx.reverse.find? fun (u, _) => u == s).map (·.2)

mutual

/-- The linear form of an expression, if it is linear in the unknowns. -/
def Expr.linearForm? (unknowns : List Symbol) : Expr α → Option (LinearForm α)
  | .number v => some (.ofConstant (.number v))
  | .symbol s =>
    match unknownIndex? unknowns s with
    | some j => some (.ofUnknown j)
    | none => some (.ofConstant (.symbol s))
  | .add ts => Expr.sumForms? unknowns (.ofConstant (.number 0)) ts
  | .mul fs =>
    match Expr.factorForms unknowns fs with
    | (_, []) => some (.ofConstant (.mul fs))
    | (others, [some form]) => some (form.scale (.product others))
    | _ => none
  | .pow b e =>
    if (Expr.pow b e).dependsOn unknowns then none else some (.ofConstant (.pow b e))
  | .call f args =>
    if (Expr.call f args).dependsOn unknowns then none else some (.ofConstant (.call f args))

/-- Adds the forms of all terms to a form. -/
def Expr.sumForms? (unknowns : List Symbol) (form : LinearForm α) :
    List (Expr α) → Option (LinearForm α)
  | [] => some form
  | t :: ts => do Expr.sumForms? unknowns (form.add (← Expr.linearForm? unknowns t)) ts

/-- The factors without unknowns, and the forms of those with unknowns. -/
def Expr.factorForms (unknowns : List Symbol) :
    List (Expr α) → List (Expr α) × List (Option (LinearForm α))
  | [] => ([], [])
  | f :: fs =>
    let (others, forms) := Expr.factorForms unknowns fs
    if f.dependsOn unknowns then (others, Expr.linearForm? unknowns f :: forms)
    else (f :: others, forms)

end

/-! ### The system -/

/-- One equation of a linear system: the coefficients of the unknowns, in their order, and
the right-hand side. -/
structure LinearRow (α : Type) where
  coefficients : List (Expr α)
  rhs : Expr α

/-- The coefficient at a position. -/
def LinearRow.coefficient (r : LinearRow α) (j : Nat) : Expr α :=
  (r.coefficients[j]?).getD (.number 0)

/-- The row of an equation, if it is linear in the unknowns. -/
def Equation.linearRow? (q : Equation α) (unknowns : List Symbol) : Option (LinearRow α) := do
  let form ← q.residual.linearForm? unknowns
  return ⟨(List.range unknowns.length).map form.coefficient, -form.constant⟩

/-- The system `A x = b` of some equations, or the first equation that is not linear. -/
def linearSystem (equations : List (Equation α)) (unknowns : List Symbol) :
    Except (SolverError α) (List (LinearRow α)) :=
  equations.zipIdx.mapM fun (q, i) =>
    match q.linearRow? unknowns with
    | some row => .ok row
    | none => .error (.nonLinear i q)

end Kirchhoff
