import Kirchhoff.Proofs.Expr.Symbols
import Kirchhoff.Synthesis.Session

/-!
# Scripts

A model that can be written down is a list of steps: each declares something in the session and may
leave a result, which later steps use in their operands. `Script.model` runs such a list.

The actions of a session read its state and write it back, field by field. What a step does as a
whole is made of a few changes (`Progress.change`): it adds an edge, keeps a result, interns a name,
registers a parameter, keeps a relation, lists an unknown or takes an auxiliary. Two steps that
differ only in a name or a number are the same change.
-/

namespace Kirchhoff

open Kirchhoff.Expr

variable {α : Type}

/-! ### Operands -/

/-- An operand of a step, written with numbers and results of the steps before. -/
inductive Operand (α : Type) where
  | number (v : α)
  /-- The result at a position. -/
  | result (i : ℕ)
  /-- A sum in canonical form. -/
  | sum (ts : List (Operand α))
  /-- A product in canonical form. -/
  | product (fs : List (Operand α))
  /-- A power in canonical form. -/
  | power (b x : Operand α)
  /-- A sum as it is written. -/
  | add (ts : List (Operand α))
  /-- A product as it is written. -/
  | mul (fs : List (Operand α))
  /-- A power as it is written. -/
  | pow (b x : Operand α)
  | call (g : String) (args : List (Operand α))

namespace Operand

variable [Scalar α]

mutual

/-- The expression of an operand, given the results of the steps before. A result that is missing
reads as zero. -/
def expr (results : List (Expr α)) : Operand α → Expr α
  | .number v => .number v
  | .result i => results.getD i (.number 0)
  | .sum ts => Expr.sum (exprs results ts)
  | .product fs => Expr.product (exprs results fs)
  | .power b x => Expr.power (expr results b) (expr results x)
  | .add ts => .add (exprs results ts)
  | .mul fs => .mul (exprs results fs)
  | .pow b x => .pow (expr results b) (expr results x)
  | .call g args => .call g (exprs results args)

/-- The expressions of operands. -/
def exprs (results : List (Expr α)) : List (Operand α) → List (Expr α)
  | [] => []
  | o :: os => expr results o :: exprs results os

end

variable {results : List (Expr α)} {P : Symbol → Prop}

mutual

/-- The symbols of an operand are those of the results. -/
theorem within_expr (h : ∀ e ∈ results, e.Within P) : ∀ o : Operand α, (o.expr results).Within P
  | .number v => within_number v
  | .result i => by
    rw [expr, List.getD_eq_getElem?_getD]
    cases hi : results[i]? with
    | none => exact within_number 0
    | some e => exact h e (List.mem_of_getElem? hi)
  | .sum ts => within_sum (within_exprs h ts)
  | .product fs => within_product (within_exprs h fs)
  | .power b x => within_power (within_expr h b) (within_expr h x)
  | .add ts => within_add_iff.2 (within_exprs h ts)
  | .mul fs => within_mul_iff.2 (within_exprs h fs)
  | .pow b x => within_pow_iff.2 ⟨within_expr h b, within_expr h x⟩
  | .call g args => within_call_iff.2 (within_exprs h args)

/-- The symbols of operands are those of the results. -/
theorem within_exprs (h : ∀ e ∈ results, e.Within P) :
    ∀ os : List (Operand α), ∀ e ∈ exprs results os, e.Within P
  | [] => List.forall_mem_nil _
  | o :: os => List.forall_mem_cons.2 ⟨within_expr h o, within_exprs h os⟩

end

end Operand

/-! ### Steps -/

/-- A step of a model. -/
inductive Step (α : Type) where
  /-- The potential across an edge. -/
  | potential (e : Edge)
  /-- The flow through an edge. -/
  | flow (e : Edge)
  /-- Another symbol, by its name. -/
  | symbol (name : String)
  /-- A parameter that stays a symbol. -/
  | parameter (name : String)
  /-- A parameter with a number, which stands for it. -/
  | constant (name : String) (v : α)
  /-- A parameter with a number, of which the symbol is used all the same. -/
  | constantSymbol (name : String) (v : α)
  /-- The timestep in formulas. -/
  | timestep
  /-- An expression for later use. -/
  | define (o : Operand α)
  | integral (o : Operand α)
  | derivative (o : Operand α)
  /-- A relation between two operands. -/
  | relate (lhs rhs : Operand α)
  /-- An operand that is a symbol becomes an unknown. -/
  | unknown (o : Operand α)

/-- The names that a step gives. -/
def Step.names : Step α → List String
  | .symbol name | .parameter name | .constant name _ | .constantSymbol name _ => [name]
  | _ => []

/-- The parameter that a step declares: its name, and its number if it has one. -/
def Step.declaration? : Step α → Option (String × Option α)
  | .parameter name => some (name, none)
  | .constant name v | .constantSymbol name v => some (name, some v)
  | _ => none

/-- The name of the parameter of which a step leaves the symbol. -/
def Step.exposed? : Step α → Option String
  | .parameter name | .constantSymbol name _ => some name
  | _ => none

/-- A session with the results of the steps taken so far. -/
structure Progress (α : Type) extends Session α where
  results : List (Expr α) := []

namespace Progress

/-- Runs an action of the session and keeps its result. -/
def push (p : Progress α) (act : StateM (Session α) (Expr α)) : Progress α :=
  { toSession := (act p.toSession).2, results := p.results ++ [(act p.toSession).1] }

/-- Runs an action of the session that has no result. -/
def act {β : Type} (p : Progress α) (act : StateM (Session α) β) : Progress α :=
  { p with toSession := (act p.toSession).2 }

variable [Scalar α]

/-- Takes a step. -/
def step (p : Progress α) : Step α → Progress α
  | .potential e => p.push do return .symbol (← Session.potential e)
  | .flow e => p.push do return .symbol (← Session.flow e)
  | .symbol name => p.push do return .symbol (← Session.symbol name)
  | .parameter name => p.push do return (← Session.parameter name).expr
  | .constant name v => p.push do return (← Session.constant name v).expr
  | .constantSymbol name v => p.push do return .symbol (← Session.constant name v).symbol
  | .timestep => p.push Session.timestep
  | .define o => p.push (return o.expr p.results)
  | .integral o => p.push (Session.integral (o.expr p.results))
  | .derivative o => p.push (Session.derivative (o.expr p.results))
  | .relate lhs rhs => p.act (Session.equation ⟨lhs.expr p.results, rhs.expr p.results⟩)
  | .unknown o =>
    match o.expr p.results with
    | .symbol s => p.act (Session.declareUnknown s)
    | _ => p

/-- Takes steps one after another. -/
def run (p : Progress α) (steps : List (Step α)) : Progress α := steps.foldl step p

end Progress

/-- The model that takes the steps of a list. -/
def Script.model [Scalar α] (steps : List (Step α)) : Model α :=
  fun s => ((), (Progress.run { toSession := s } steps).toSession)

/-! ### What actions leave behind -/

namespace Session

variable (s : Session α)

/-- A parameter is listed, unless one of its symbol is. -/
theorem declareParameter_run (q : Quantity α) :
    (declareParameter q s).2 = { s with
      parameters := if s.parameters.any (· == q) then s.parameters else s.parameters ++ [q] } := by
  show (if s.parameters.any (· == q) then s else { s with parameters := s.parameters ++ [q] }) = _
  split <;> rfl

/-- An unknown is listed, unless it is already. -/
theorem declareUnknown_run (u : Symbol) :
    (declareUnknown u s).2 = { s with
      unknowns := if s.unknowns.contains u then s.unknowns else s.unknowns ++ [u] } := by
  show (if s.unknowns.contains u then s else { s with unknowns := s.unknowns ++ [u] }) = _
  split <;> rfl

/-- An equation is kept if it has no call, and counted otherwise. -/
theorem equation_run (q : Equation α) :
    (equation q s).2 = { s with
      relations := if q.isSupported then s.relations ++ [q] else s.relations
      dropped := if q.isSupported then s.dropped else s.dropped + 1 } := by
  unfold equation
  by_cases h : q.isSupported <;> simp [h]

end Session

/-! ### What a step does -/

namespace Progress

/-- Adds an edge to the topology. -/
def addEdge (p : Progress α) (e : Edge) : Progress α := { p with topology := p.topology.addEdge e }

/-- Keeps a result. -/
def keep (p : Progress α) (e : Expr α) : Progress α := { p with results := p.results ++ [e] }

/-- Interns a name and keeps its symbol. -/
def intern (p : Progress α) (name : String) : Progress α :=
  { p with
    context := (Context.symbol name p.context).2
    results := p.results ++ [.symbol (Context.symbol name p.context).1] }

/-- The parameter of a name and a number. -/
def quantity (p : Progress α) (name : String) (v : Option α) : Quantity α :=
  ⟨(Context.symbol name p.context).1, v⟩

/-- Lists the parameter of a name and a number, unless one of the name is listed. -/
def register (p : Progress α) (name : String) (v : Option α) : Progress α :=
  { p with
    context := (Context.symbol name p.context).2
    parameters :=
      if p.parameters.any (· == p.quantity name v) then p.parameters
      else p.parameters ++ [p.quantity name v] }

/-- Keeps an equation without calls and counts one with calls. -/
def relate (p : Progress α) (q : Equation α) : Progress α :=
  { p with
    relations := if q.isSupported then p.relations ++ [q] else p.relations
    dropped := if q.isSupported then p.dropped else p.dropped + 1 }

/-- Lists an expression that is a symbol as an unknown. -/
def list (p : Progress α) (e : Expr α) : Progress α :=
  { p with
    unknowns := match e with
      | .symbol u => if p.unknowns.contains u then p.unknowns else p.unknowns ++ [u]
      | _ => p.unknowns }

variable [Scalar α]

/-- Takes an auxiliary for an operator and keeps the operator's result. The result and the right
side that refreshes the auxiliary are written with the auxiliary and the timestep. -/
def operate (p : Progress α) (stem : String) (result refreshed : Expr α → Expr α → Expr α) :
    Progress α :=
  let a := (Context.freshSymbol stem p.context).1
  let k := (Context.freshSymbol stem p.context).2
  { p with
    context := k
    discretization := p.discretization.record a (refreshed (.symbol a) k.timestepExpr)
    results := p.results ++ [result (.symbol a) k.timestepExpr] }

variable (p : Progress α)

/-- The change that a step makes. -/
def change : Step α → Progress α
  | .potential e => (p.addEdge e).intern (e.name ++ ".pot")
  | .flow e => (p.addEdge e).intern (e.name ++ ".flw")
  | .symbol name => p.intern name
  | .parameter name => (p.register name none).keep (.symbol (p.quantity name none).symbol)
  | .constant name v => (p.register name (some v)).keep (.number v)
  | .constantSymbol name v =>
    (p.register name (some v)).keep (.symbol (p.quantity name (some v)).symbol)
  | .timestep => p.keep p.context.timestepExpr
  | .define o => p.keep (o.expr p.results)
  | .integral o => p.operate Discretization.integralStem
      (fun a ts => a + o.expr p.results * ts) (fun _ ts => o.expr p.results * ts)
  | .derivative o => p.operate Discretization.derivativeStem
      (fun a ts => (o.expr p.results - a) / ts) (fun a ts => (o.expr p.results - a) / ts)
  | .relate lhs rhs => p.relate ⟨lhs.expr p.results, rhs.expr p.results⟩
  | .unknown o => p.list (o.expr p.results)

/-- A step makes its change. -/
theorem step_eq_change (st : Step α) : p.step st = p.change st := by
  cases st with
  | parameter name =>
    show Progress.mk (Session.declareParameter (p.quantity name none) _).2 _ = _
    rw [Session.declareParameter_run]
    rfl
  | constant name v | constantSymbol name v =>
    show Progress.mk (Session.declareParameter (p.quantity name (some v)) _).2 _ = _
    rw [Session.declareParameter_run]
    rfl
  | relate lhs rhs =>
    show Progress.mk (Session.equation _ _).2 _ = _
    rw [Session.equation_run]
    rfl
  | unknown o =>
    rw [step, change]
    cases o.expr p.results with
    | symbol u =>
      show Progress.mk (Session.declareUnknown u _).2 _ = _
      rw [Session.declareUnknown_run]
      rfl
    | _ => rfl
  | _ => rfl

end Progress

end Kirchhoff
