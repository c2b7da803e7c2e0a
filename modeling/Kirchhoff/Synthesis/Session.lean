import Kirchhoff.Discretization
import Kirchhoff.Synthesis.System

/-!
# Sessions

A model declares its elements in a session. Whoever asks for the potential or the flow of an
edge adds the edge to the topology, so that the topology holds what the model has touched,
in that order. `synthesize` runs a model and reads off the laws of its network.

An equation that contains a call of a function is not kept. A repeated unknown or parameter
is listed once.
-/

namespace Kirchhoff

/-- A synthesis in progress. -/
structure Session (α : Type) where
  context : Context α
  topology : Topology := .empty
  relations : List (Equation α) := []
  unknowns : List Symbol := []
  parameters : List (Quantity α) := []
  discretization : Discretization α := .empty
  /-- The number of equations that were not kept. -/
  dropped : Nat := 0

namespace Session

variable {α : Type}

/-- Runs an action on the context of the session. -/
def inContext {β : Type} (act : StateM (Context α) β) : StateM (Session α) β := fun s =>
  let (b, context) := act s.context
  (b, { s with context })

/-! ### Symbols and edges -/

/-- Adds an edge to the topology. -/
def declareEdge (e : Edge) : StateM (Session α) Unit :=
  modify fun s => { s with topology := s.topology.addEdge e }

/-- The potential across an edge. -/
def potential (e : Edge) : StateM (Session α) Symbol := do
  declareEdge e
  inContext (Context.potential e)

/-- The flow through an edge. -/
def flow (e : Edge) : StateM (Session α) Symbol := do
  declareEdge e
  inContext (Context.flow e)

/-- Another symbol, by its name. -/
def symbol (name : String) : StateM (Session α) Symbol := inContext (Context.symbol name)

/-! ### Parameters -/

/-- Lists a parameter, unless one of its symbol is listed. -/
def declareParameter (q : Quantity α) : StateM (Session α) Unit :=
  modify fun s =>
    if s.parameters.any (· == q) then s else { s with parameters := s.parameters ++ [q] }

/-- A parameter that stays a symbol. -/
def parameter (name : String) : StateM (Session α) (Quantity α) := do
  let q : Quantity α := { symbol := ← symbol name }
  declareParameter q
  return q

/-- A parameter with a number, which stands for it in formulas. -/
def constant (name : String) (v : α) : StateM (Session α) (Quantity α) := do
  let q : Quantity α := ⟨← symbol name, some v⟩
  declareParameter q
  return q

/-! ### Equations and unknowns -/

/-- Keeps an equation without calls and counts one with calls. Tells whether it is kept. -/
def equation (q : Equation α) : StateM (Session α) Bool := fun s =>
  if q.isSupported then (true, { s with relations := s.relations ++ [q] })
  else (false, { s with dropped := s.dropped + 1 })

/-- Hands in equations one after another. -/
def equations (qs : List (Equation α)) : StateM (Session α) Unit :=
  qs.forM fun q => discard (equation q)

/-- Lists an unknown, unless it is listed. -/
def declareUnknown (u : Symbol) : StateM (Session α) Unit :=
  modify fun s => if s.unknowns.contains u then s else { s with unknowns := s.unknowns ++ [u] }

/-- Lists unknowns. -/
def declareUnknowns (us : List Symbol) : StateM (Session α) Unit := us.forM declareUnknown

/-! ### Time -/

variable [Scalar α]

/-- The timestep in formulas. -/
def timestep : StateM (Session α) (Expr α) := return (← get).context.timestepExpr

/-- Runs an operator on the discretization of the session. -/
def discretize
    (operator : Discretization α → StateM (Context α) (Expr α × Discretization α)) :
    StateM (Session α) (Expr α) := fun s =>
  let ((e, discretization), context) := operator s.discretization s.context
  (e, { s with context, discretization })

/-- The integral of an operand over time. -/
def integral (e : Expr α) : StateM (Session α) (Expr α) := discretize (·.integral e)

/-- The derivative of an operand with respect to time. -/
def derivative (e : Expr α) : StateM (Session α) (Expr α) := discretize (·.derivative e)

/-! ### The end of a session -/

/-- Reads off the laws of the network and puts the system together. -/
def finish (s : Session α) : System α × Context α :=
  let (analysis, context) := s.topology.analyze s.context
  let system := {
    topology := s.topology
    relations := s.relations
    potentialLaws := analysis.potentialLaws
    flowLaws := analysis.flowLaws
    unknowns := s.unknowns
    parameters := s.parameters
    support := s.discretization.support
    auxiliaries := s.discretization.auxiliaries
    timestep := context.timestep
    tree := analysis.tree.map fun i => (s.topology.edge i).name
    diagnostics := analysis.diagnostics }
  (system, context)

end Session

/-- A circuit is described by what it declares in a session. -/
abbrev Model (α : Type) := StateM (Session α) Unit

/-- The system of a model. -/
def synthesize {α : Type} [Scalar α] (model : Model α) : StateM (Context α) (System α) := fun c =>
  (model { context := c }).2.finish

end Kirchhoff
