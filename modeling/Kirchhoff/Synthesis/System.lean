import Kirchhoff.Linear.System
import Kirchhoff.Network.Laws
import Kirchhoff.Substitution
import Kirchhoff.Synthesis.Balance
import Kirchhoff.Text.Lines

/-!
# Systems of a circuit

A `System` is what is known of a circuit once its elements are declared: the relations of
the elements, the laws of the network and the bookkeeping of integrals and derivatives. Its
`Solution` gives every unknown in closed form.
-/

namespace Kirchhoff

variable {α : Type}

/-- The equations of a circuit, and what they are about. -/
structure System (α : Type) where
  topology : Topology
  /-- The relations of the elements, in the order in which they were declared. -/
  relations : List (Equation α)
  potentialLaws : List (Equation α)
  flowLaws : List (Equation α)
  unknowns : List Symbol
  parameters : List (Quantity α)
  /-- How the auxiliaries are refreshed after a step. -/
  support : List (Equation α)
  auxiliaries : List (Quantity α)
  timestep : Quantity α
  /-- The names of the edges of the spanning tree. -/
  tree : List String
  diagnostics : List Diagnostic

/-- The closed forms of the unknowns, and how the auxiliaries are refreshed. -/
structure Solution (α : Type) where
  equations : List (Equation α) := []
  support : List (Equation α) := []
  auxiliaries : List (Quantity α) := []

/-- Why a system is not solved. -/
inductive SynthesisError (α : Type) where
  /-- The solver fails. -/
  | solver (e : SolverError α)
  /-- The solver leaves out an unknown. -/
  | missingSolution (unknown : Symbol)

/-- The report of a synthesis error. -/
def SynthesisError.message [Scalar α] [Numeral α] : SynthesisError α → String
  | .solver e => e.message
  | .missingSolution s => "Solver returned no closed form for '" ++ s.name ++ "'"

/-- The equations set the symbol equal to something. -/
def isResolved (equations : List (Equation α)) (s : Symbol) : Bool :=
  equations.any fun q => q.lhs.symbol?.any (· == s)

namespace System

/-- All equations for the unknowns: relations of elements, laws of potentials, laws of
flows. -/
def equations (s : System α) : List (Equation α) :=
  s.relations ++ s.potentialLaws ++ s.flowLaws

/-- The numbers of equations and unknowns. -/
def balance (s : System α) : Balance := ⟨s.equations.length, s.unknowns.length⟩

variable [Scalar α]

/-- The equations for the unknowns after a substitution. -/
def substituted (s : System α) (σ : Substitution α) : List (Equation α) :=
  s.equations.map σ.applyEquation

/-- The rows of the linear system after a substitution. -/
def rows (s : System α) (σ : Substitution α) : Except (SolverError α) (List (LinearRow α)) :=
  linearSystem (s.substituted σ) s.unknowns

/-- Solves the system for its unknowns after a substitution. -/
def solve (s : System α) (solver : Solver α) (σ : Substitution α) :
    Except (SynthesisError α) (Solution α) :=
  match solver (s.substituted σ) s.unknowns with
  | .error e => .error (.solver e)
  | .ok equations =>
    match s.unknowns.find? fun u => !isResolved equations u with
    | some u => .error (.missingSolution u)
    | none =>
      .ok { equations, support := s.support.map σ.applyEquation, auxiliaries := s.auxiliaries }

end System

/-- The closed form of the unknown of a name. -/
def Solution.get? (s : Solution α) (name : String) : Option (Expr α) :=
  (s.equations.find? fun q => q.lhs.symbol?.any (·.name == name)).map (·.rhs)

/-! ### Reports -/

variable [Scalar α] [Numeral α]

/-- The report of a system. -/
def System.text (s : System α) : String :=
  let texts (qs : List (Equation α)) := qs.map (·.text)
  Text.unlines (
    ["system:",
      Text.listing "Nodes  " (s.topology.nodes.map (·.text)),
      Text.listing "Edges  " (s.topology.edges.map (·.name)),
      Text.listing "Values " (s.parameters.map (·.name))]
    ++ Text.chapter "Equations" (texts s.relations)
    ++ Text.chapter "Equations (KVL)" (texts s.potentialLaws)
    ++ Text.chapter "Equations (KCL)" (texts s.flowLaws)
    ++ Text.chapter "Support" (texts s.support)
    ++ Text.chapter "Unknowns" (s.unknowns.map (·.name)))

/-- The report of a solution. -/
def Solution.text (s : Solution α) : String :=
  let texts (qs : List (Equation α)) := qs.map fun q => "    " ++ q.text
  Text.unlines ("Solved equations:" :: texts s.equations ++ "Support:" :: texts s.support)

end Kirchhoff
