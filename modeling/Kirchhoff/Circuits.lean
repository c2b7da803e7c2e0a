import Kirchhoff.Synthesis.Session

/-!
# Circuits that come with the library

Each circuit declares its elements and its unknowns; the laws of its network come from the
synthesis. A source whose potential is not an unknown is a free input.
-/

namespace Kirchhoff

/-- A circuit with a name and a description. -/
structure Circuit where
  name : String
  description : String
  model : Model Float

namespace Circuit

/-- An action in the session of a circuit. -/
abbrev Declaration (β : Type) := StateM (Session Float) β

/-! ### Elements

An element gives its unknowns: its potential, then its flow. -/

/-- The equation of two sides is a relation of an element. -/
def relate (lhs rhs : Expr Float) : Declaration Unit := do
  let _ ← Session.equation ⟨lhs, rhs⟩

/-- A source with a given potential. -/
def source (e : Edge) (v : Quantity Float) : Declaration Symbol := do
  let p ← Session.potential e
  relate p v.expr
  return p

/-- A resistor: its potential is its resistance times its flow. -/
def resistor (e : Edge) (r : Quantity Float) : Declaration (List Symbol) := do
  let p ← Session.potential e
  let f ← Session.flow e
  relate p (r.expr * f)
  return [p, f]

/-- A resistive load: its potential is its flow times its resistance. -/
def load (e : Edge) (r : Quantity Float) : Declaration (List Symbol) := do
  let p ← Session.potential e
  let f ← Session.flow e
  relate p (f * r.expr)
  return [p, f]

/-- A conductor: its flow is its potential divided by its resistance. -/
def conductor (e : Edge) (r : Expr Float) : Declaration (List Symbol) := do
  let f ← Session.flow e
  let p ← Session.potential e
  relate f (p / r)
  return [p, f]

/-- A capacitor: its flow is its capacity times the rate of its potential. -/
def capacitor (e : Edge) (c : Quantity Float) : Declaration (List Symbol) := do
  let f ← Session.flow e
  let p ← Session.potential e
  let rate ← Session.derivative p
  relate f (c.expr * rate)
  return [p, f]

/-- A coupling capacitor: its flow is the rate of its potential times its capacity. -/
def coupling (e : Edge) (c : Quantity Float) : Declaration (List Symbol) := do
  let f ← Session.flow e
  let p ← Session.potential e
  let rate ← Session.derivative p
  relate f (rate * c.expr)
  return [p, f]

/-- A capacitor that gathers its flow: its potential is its charge over its capacity. -/
def reservoir (e : Edge) (c : Quantity Float) : Declaration (List Symbol) := do
  let p ← Session.potential e
  let f ← Session.flow e
  let charge ← Session.integral f
  relate p (.number 1 / c.expr * charge)
  return [p, f]

/-- An inductor: its potential is its inductance times the slope of its flow. -/
def inductor (e : Edge) (l : Quantity Float) : Declaration (List Symbol) := do
  let p ← Session.potential e
  let f ← Session.flow e
  let slope ← Session.derivative f
  relate p (l.expr * slope)
  return [p, f]

/-- An inductor that gathers its potential: its flow is its flux over its inductance. -/
def choke (e : Edge) (l : Quantity Float) : Declaration (List Symbol) := do
  let f ← Session.flow e
  let p ← Session.potential e
  let flux ← Session.integral p
  relate f (.number 1 / l.expr * flux)
  return [p, f]

/-! ### Nodes and edges -/

/-- The ground node of all circuits. -/
def gnd : Node := .ground "gnd"

/-- A node that is not ground. -/
def node (name : String) : Node := { name }

/-! ### The circuits -/

/-- A source drives a resistor and a capacitor. -/
def seriesRC : Declaration Unit := do
  let vin ← Session.parameter "vin"
  let r ← Session.parameter "r0"
  let c ← Session.parameter "c0"
  let v0 := Edge.between gnd (node "in") "V0"
  let pv ← source v0 vin
  let r0 ← resistor (.between (node "in") (node "out") "R0") r
  let c0 ← capacitor (.between (node "out") gnd "C0") c
  let fv ← Session.flow v0
  Session.declareUnknowns ([pv, fv] ++ r0 ++ c0)

/-- A resistor feeds a capacitor, an inductor and a load, which are parallel. -/
def rc : Declaration Unit := do
  let r ← Session.parameter "r0"
  let c ← Session.parameter "c0"
  let l ← Session.parameter "l0"
  let rl ← Session.parameter "rl"
  let r0 ← resistor (.between (node "in") (node "out") "R0") r
  let c0 ← capacitor (.between (node "out") gnd "C0") c
  let l0 ← choke (.between (node "out") gnd "L0") l
  let rl ← resistor (.between (node "out") gnd "RL") rl
  let fv ← Session.flow (.between gnd (node "in") "V0")
  Session.declareUnknowns (fv :: r0 ++ c0 ++ l0 ++ rl)

/-- A resistor, an inductor and a capacitor feed a load. -/
def rlc : Declaration Unit := do
  let r ← Session.parameter "r0"
  let l ← Session.parameter "l0"
  let c ← Session.parameter "c0"
  let rl ← Session.parameter "rl"
  let r0 ← resistor (.between (node "in") (node "n1") "R0") r
  let l0 ← inductor (.between (node "n1") (node "n2") "L0") l
  let c0 ← capacitor (.between (node "n2") (node "out") "C0") c
  let rl ← resistor (.between (node "out") gnd "RL") rl
  let fv ← Session.flow (.between gnd (node "in") "V0")
  Session.declareUnknowns (fv :: r0 ++ l0 ++ c0 ++ rl)

/-- One section of a resistor, an inductor and a capacitor, whose parameters are told apart
by a number. -/
def stage (number : String) (r l c : Edge) : Declaration (List Symbol) := do
  let resistance ← Session.parameter ("r" ++ number)
  let inductance ← Session.parameter ("l" ++ number)
  let capacity ← Session.parameter ("c" ++ number)
  let r ← resistor r resistance
  let l ← inductor l inductance
  let c ← reservoir c capacity
  return r ++ l ++ c

/-- Two sections, one behind the other. -/
def doubleRLC : Declaration Unit := do
  let v0 := Edge.between gnd (node "n0") "V0"
  let vin ← Session.parameter "vin"
  let pv ← source v0 vin
  let fv ← Session.flow v0
  let first ← stage "0" (.between (node "n0") (node "n1") "R0")
    (.between (node "n1") (node "n2") "L0") (.between (node "n2") (node "n3") "C0")
  let second ← stage "1" (.between (node "n4") gnd "R1")
    (.between (node "n3") gnd "L1") (.between (node "n3") (node "n4") "C1")
  Session.declareUnknowns ([pv, fv] ++ first ++ second)

/-- A diode, linear above its threshold, with a load. -/
def diode : Declaration Unit := do
  let vin ← Session.parameter "vin"
  let rl ← Session.parameter "rl"
  let phi ← Session.parameter "phi"
  let rf ← Session.parameter "rf"
  let v0 := Edge.between gnd (node "in") "V0"
  let d0 := Edge.between (node "in") (node "out") "D0"
  let pv ← source v0 vin
  let fd ← Session.flow d0
  let pd ← Session.potential d0
  relate fd ((pd - phi.expr) / rf.expr)
  let rl ← load (.between (node "out") gnd "RL") rl
  let fv ← Session.flow v0
  Session.declareUnknowns ([pv, fv, pd, fd] ++ rl)

/-- A memristor, taken as a negative conductance, with a load. -/
def memristor : Declaration Unit := do
  let vin ← Session.parameter "vin"
  let g ← Session.parameter "G"
  let rl ← Session.parameter "rl"
  let v0 := Edge.between gnd (node "in") "V0"
  let m0 := Edge.between (node "in") (node "out") "M0"
  let pv ← source v0 vin
  let fm ← Session.flow m0
  let pm ← Session.potential m0
  relate fm (-g.expr * pm)
  let rl ← load (.between (node "out") gnd "RL") rl
  let fv ← Session.flow v0
  Session.declareUnknowns ([pv, fv, pm, fm] ++ rl)

/-- An inverter with coupling capacitors and leaking outputs. -/
def notGate : Declaration Unit := do
  let a := node "a"
  let q := node "q"
  let vdd := node "vdd"
  let vss := node "vss"
  let coupled (e : Edge) (name : String) : Declaration (List Symbol) := do
    coupling e (← Session.parameter name)
  let conducting (e : Edge) (name : String) : Declaration (List Symbol) := do
    conductor e (← Session.parameter name).expr
  let c0 ← coupled (.between a vdd "C0") "c0"
  let c1 ← coupled (.between a vss "C1") "c1"
  let r0 ← conducting (.between vdd q "R0") "r0"
  let r1 ← conducting (.between vss q "R1") "r1"
  let c2 ← coupled (.between vdd q "C2") "c2"
  let c3 ← coupled (.between vss q "C3") "c3"
  let leak : Expr Float := .number 1e9
  let rl0 ← conductor (.between q gnd "RL0") leak
  let rl1 ← conductor (.between vdd gnd "RL1") leak
  let rl2 ← conductor (.between vss gnd "RL2") leak
  let fv ← Session.flow (.between gnd a "V0")
  Session.declareUnknowns (fv :: c0 ++ c1 ++ r0 ++ r1 ++ c2 ++ c3 ++ rl0 ++ rl1 ++ rl2)

/-- All circuits. -/
def all : List Circuit := [
  ⟨"series_rc", "Voltage source driving a resistor and a capacitor in series", seriesRC⟩,
  ⟨"rc", "Resistor feeding a capacitor, an inductor and a load in parallel", rc⟩,
  ⟨"rlc", "Series RLC with a resistive load", rlc⟩,
  ⟨"double_rlc", "Two cascaded RLC sections", doubleRLC⟩,
  ⟨"diode", "Linearized diode with a resistive load", diode⟩,
  ⟨"memristor", "Memristor modeled as a negative conductance, with a load", memristor⟩,
  ⟨"not_gate", "Capacitively coupled inverter with leakage loads", notGate⟩]

/-- The circuit of a name. -/
def find? (name : String) : Option Circuit := all.find? (·.name == name)

end Circuit

end Kirchhoff
