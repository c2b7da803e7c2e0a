import Kirchhoff.Network.Topology

/-!
# Spanning forests

Chooses edges that join the nodes of a circuit to its ground nodes without closing a loop.

* First, every edge at a ground node is taken in its order, unless both of its nodes are
  reached already, or its other node is an end of an edge taken before.
* Then the nodes are visited in the order in which they were reached. From each of them,
  every edge to a node that is not reached yet is taken, and the node is reached.

A circuit that hangs together and has one ground node gets a spanning tree, with one edge
less than it has nodes.
-/

namespace Kirchhoff

/-- Nodes reached and edges taken, each in the order in which this happened. -/
structure Forest where
  nodes : List Nat := []
  edges : List Nat := []

namespace Forest

/-- Marks a node as reached. -/
def reach (f : Forest) (n : Nat) : Forest :=
  if f.nodes.contains n then f else { f with nodes := f.nodes ++ [n] }

/-- Takes an edge and reaches both of its nodes. -/
def take (g : Graph) (f : Forest) (e : Nat) : Forest :=
  let f := { f with edges := f.edges ++ [e] }
  (f.reach (g.first e)).reach (g.second e)

/-- An edge taken before ends at one node while the other one is ground. -/
def isBlocked (g : Graph) (f : Forest) (a b : Nat) : Bool :=
  f.edges.any fun e => (g.touches e a && g.isGround b) || (g.touches e b && g.isGround a)

/-! ### Edges at the ground -/

/-- An edge at the ground may be taken. -/
def mayAnchor (g : Graph) (f : Forest) (e : Nat) : Bool :=
  let a := g.first e
  let b := g.second e
  !g.isSelfLoop e && (g.isGround a || g.isGround b) &&
    !(f.nodes.contains a && f.nodes.contains b) && !f.isBlocked g a b

/-- Takes an edge at the ground if it may be taken. -/
def anchorStep (g : Graph) (f : Forest) (e : Nat) : Forest :=
  if f.mayAnchor g e then f.take g e else f

/-- The edges taken at the ground. -/
def anchored (g : Graph) : Forest := (List.range g.edgeCount).foldl (anchorStep g) {}

/-! ### Edges to further nodes -/

/-- The edge leads from a node to one that is not reached yet. -/
def mayGrow (g : Graph) (n : Nat) (f : Forest) (e : Nat) : Bool :=
  !f.edges.contains e &&
    ((n == g.first e && !f.nodes.contains (g.second e)) ||
      (n == g.second e && !f.nodes.contains (g.first e)))

/-- Takes an edge at a reached node if it leads further. -/
def growStep (g : Graph) (n : Nat) (f : Forest) (e : Nat) : Forest :=
  if f.mayGrow g n e then f.take g e else f

/-- Visits a node: takes all its edges that lead further. -/
def visit (g : Graph) (f : Forest) (n : Nat) : Forest := (g.incident n).foldl (growStep g n) f

/-- Visits the node that was reached at a place in the order, if there is one. -/
def visitAt (g : Graph) (f : Forest) (place : Nat) : Forest :=
  match f.nodes[place]? with
  | some n => f.visit g n
  | none => f

end Forest

/-- The spanning forest of a circuit. -/
def Graph.forest (g : Graph) : Forest :=
  (List.range g.nodeCount).foldl (Forest.visitAt g) (Forest.anchored g)

/-- The number of edges of a tree that reaches every node. -/
def Graph.treeSize (g : Graph) : Nat := g.nodeCount - 1

end Kirchhoff
