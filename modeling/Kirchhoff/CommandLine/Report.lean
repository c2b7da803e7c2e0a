import Kirchhoff.Json
import Kirchhoff.Synthesis.System

/-!
# Reports as JSON

The JSON documents of systems and solutions. Expressions are given by their texts.
-/

namespace Kirchhoff

/-- The two sides of an equation. -/
def Equation.json (q : Equation Float) : Json :=
  .record [("lhs", .text q.lhs.text), ("rhs", .text q.rhs.text)]

/-- A quantity with its number. -/
def Quantity.json (q : Quantity Float) : Json :=
  .record [("symbol", .text q.name), ("value", .ofFloat q.value), ("replace", .bool q.isReplaced)]

/-- A node and its ground mark. -/
def Node.json (n : Node) : Json := .record [("name", .text n.name), ("ground", .bool n.isGround)]

/-- An edge and its nodes. -/
def Edge.json (e : Edge) : Json :=
  .record [("first", e.first.json), ("second", e.second.json), ("alias", .text e.name)]

/-- The nodes and edges of a topology. -/
def Topology.json (t : Topology) : Json :=
  .record [("nodes", .list (t.nodes.map (·.json))), ("edges", .list (t.edges.map (·.json)))]

/-- A diagnostic and what it is about. -/
def Diagnostic.json : Diagnostic → Json
  | .spanningTreeShortfall taken expected =>
    .record [("kind", .text "SpanningTreeShortfall"), ("selected", .count taken),
      ("expected", .count expected)]
  | .loopNotClosed edge => .record [("kind", .text "LoopNotClosed"), ("edge", .text edge)]
  | .isolatedNode node => .record [("kind", .text "IsolatedNode"), ("node", .text node)]

/-- The word for a status. -/
def BalanceStatus.word : BalanceStatus → String
  | .balanced => "Balanced"
  | .overDetermined => "OverDetermined"
  | .underDetermined => "UnderDetermined"

/-- The numbers of a balance and how they compare. -/
def Balance.json (b : Balance) : Json :=
  .record [("num_equations", .count b.equations), ("num_unknowns", .count b.unknowns),
    ("status", .text b.status.word)]

/-- Equations in their order. -/
def equationsJson (qs : List (Equation Float)) : Json := .list (qs.map (·.json))

/-- A system. -/
def System.json (s : System Float) : Json :=
  .record [
    ("topology", s.topology.json),
    ("equations", equationsJson s.relations),
    ("kvl", equationsJson s.potentialLaws),
    ("kcl", equationsJson s.flowLaws),
    ("unknowns", .list (s.unknowns.map fun u => .text u.name)),
    ("values", .list (s.parameters.map (·.json))),
    ("support", equationsJson s.support),
    ("auxiliaries", .list (s.auxiliaries.map (·.json))),
    ("timestep", s.timestep.json),
    ("tree", .list (s.tree.map .text)),
    ("diagnostics", .list (s.diagnostics.map (·.json)))]

/-- A solution. -/
def Solution.json (s : Solution Float) : Json :=
  .record [
    ("equations", equationsJson s.equations),
    ("support", equationsJson s.support),
    ("auxiliaries", .list (s.auxiliaries.map (·.json)))]

end Kirchhoff
