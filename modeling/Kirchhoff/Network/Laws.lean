import Kirchhoff.Context
import Kirchhoff.Equation
import Kirchhoff.Expr.Canonical
import Kirchhoff.Network.Cycle

/-!
# The laws of a network

What the topology of a circuit says about potentials and flows, whatever its elements are:

* along each fundamental loop the potentials add up to zero;
* parallel edges have the potential of the first of them;
* at each node that is not ground, the flows in and out add up to zero.

A topology that is not well formed gives the laws that can be written down, and a
`Diagnostic` for each that cannot.
-/

namespace Kirchhoff

/-! ### Parallel edges -/

/-- Edges between the same two nodes: the first of them, and the others. -/
structure ParallelGroup where
  representative : Nat
  others : List Nat

/-- Takes an edge into the group of another one, if it is in no group yet and parallel to it.
What is carried along are the marks of the edges that are in a group, and the others of the
group. -/
def Graph.joinGroup (g : Graph) (e : Nat) (s : List Bool × List Nat) (d : Nat) :
    List Bool × List Nat :=
  if !s.1.getD d false && g.isParallel e d then (s.1.set d true, s.2 ++ [d]) else s

/-- Gathers the group of an edge that is in no group yet. An edge on its own is marked, but
makes no group. -/
def Graph.openGroup (g : Graph) (s : List Bool × List ParallelGroup) (e : Nat) :
    List Bool × List ParallelGroup :=
  if s.1.getD e false then s
  else
    let later := List.range' (e + 1) (g.edgeCount - (e + 1))
    let (marks, others) := later.foldl (g.joinGroup e) (s.1.set e true, [])
    (marks, if others.isEmpty then s.2 else s.2 ++ [⟨e, others⟩])

/-- The groups of two and more parallel edges, by their first edge. -/
def Graph.parallelGroups (g : Graph) : List ParallelGroup :=
  ((List.range g.edgeCount).foldl g.openGroup (List.replicate g.edgeCount false, [])).2

/-! ### Flows at a node -/

/-- The sign of the flow of an edge at a node: negative when the edge leaves the node,
positive when it enters the node. -/
def Graph.flowSign? (g : Graph) (n e : Nat) : Option Int :=
  if g.first e = n then some (-1) else if g.second e = n then some 1 else none

/-- The edges at a node with the signs of their flows. -/
def Graph.balance (g : Graph) (n : Nat) : List (Nat × Int) :=
  (List.range g.edgeCount).filterMap fun e => (g.flowSign? n e).map fun s => (e, s)

/-- The nodes that are not ground. -/
def Graph.floating (g : Graph) : List Nat :=
  (List.range g.nodeCount).filter fun n => !g.isGround n

/-! ### The analysis -/

/-- What is wrong with a topology. -/
inductive Diagnostic where
  /-- The spanning tree does not reach every node. -/
  | spanningTreeShortfall (taken expected : Nat)
  /-- An edge outside the spanning tree closes no loop with it. -/
  | loopNotClosed (edge : String)
  /-- No edge ends at a node. -/
  | isolatedNode (node : String)

/-- The report of a diagnostic. -/
def Diagnostic.text : Diagnostic → String
  | .spanningTreeShortfall taken expected =>
    "spanning tree has " ++ taken.repr ++ " edges, expected " ++ expected.repr
  | .loopNotClosed edge => "edge '" ++ edge ++ "' closes no loop with the spanning tree"
  | .isolatedNode node => "node '" ++ node ++ "' has no connected edges"

/-- The laws of a network and what they were read from. -/
structure Analysis (α : Type) where
  /-- The edges of the spanning tree, in the order in which they were taken. -/
  tree : List Nat
  /-- The number of edges that the spanning tree should have. -/
  treeSize : Nat
  /-- The edges outside the tree, with the loops that they close. -/
  loops : List (Nat × Option Loop)
  parallel : List ParallelGroup
  /-- The laws of the loops, then those of the parallel edges. -/
  potentialLaws : List (Equation α)
  /-- The laws of the nodes. -/
  flowLaws : List (Equation α)
  diagnostics : List Diagnostic

namespace Topology

variable {α : Type} [Scalar α]

/-- The potential of the edge at a position, in formulas. -/
def potential (t : Topology) (i : Nat) : StateM (Context α) (Expr α) :=
  return .symbol (← Context.potential (t.edge i))

/-- The flow of the edge at a position, in formulas. -/
def flow (t : Topology) (i : Nat) : StateM (Context α) (Expr α) :=
  return .symbol (← Context.flow (t.edge i))

/-- The law of a loop. -/
def loopLaw (t : Topology) (l : Loop) : StateM (Context α) (Equation α) := do
  let positive ← l.positive.mapM t.potential
  let negative ← l.negative.mapM t.potential
  return ⟨.sum (positive ++ negative.map (- ·)), .number 0⟩

/-- The laws of parallel edges. -/
def parallelLaws (t : Topology) (p : ParallelGroup) : StateM (Context α) (List (Equation α)) := do
  let representative ← t.potential p.representative
  p.others.mapM fun i => return ⟨representative, ← t.potential i⟩

/-- The flow of an edge with its sign. -/
def signedFlow (t : Topology) : Nat × Int → StateM (Context α) (Expr α)
  | (i, s) => do
    let flow ← t.flow i
    return if s < 0 then -flow else flow

/-- The law of a node. -/
def nodeLaw (t : Topology) (terms : List (Nat × Int)) : StateM (Context α) (Equation α) := do
  return ⟨.sum (← terms.mapM t.signedFlow), .number 0⟩

/-- What is wrong with a topology: the tree first, then the loops, then the nodes. -/
def diagnose (t : Topology) (tree : List Nat) (loops : List (Nat × Option Loop)) :
    List Diagnostic :=
  let g := t.graph
  let shortfall :=
    if tree.length = g.treeSize then []
    else [.spanningTreeShortfall tree.length g.treeSize]
  let unclosed := loops.filterMap fun (e, l) =>
    if l.isNone then some (.loopNotClosed (t.edge e).name) else none
  let isolated := g.floating.filterMap fun n =>
    if (g.balance n).isEmpty then some (.isolatedNode (t.node n).name) else none
  shortfall ++ unclosed ++ isolated

/-- Reads the laws off a topology. Symbols of potentials and flows are interned as they are
met. -/
def analyze (t : Topology) : StateM (Context α) (Analysis α) := do
  let g := t.graph
  let tree := g.forest.edges
  let loops := g.loops tree
  let parallel := g.parallelGroups
  let loopLaws ← (loops.filterMap (·.2)).mapM t.loopLaw
  let equalities ← parallel.mapM t.parallelLaws
  let balances := (g.floating.map g.balance).filter (!·.isEmpty)
  let flowLaws ← balances.mapM t.nodeLaw
  return {
    tree, treeSize := g.treeSize, loops, parallel
    potentialLaws := loopLaws ++ equalities.flatten
    flowLaws
    diagnostics := t.diagnose tree loops }

end Topology

end Kirchhoff
