import Kirchhoff.Network.Basic

/-!
# Topologies

The nodes and edges of a circuit, each listed once, in the order in which they were first
named. An edge brings its nodes with it. When a node or an edge is named again, what was
said first stands: the ground mark of a node, the ends of an edge.

A `Graph` is the view of a topology in which nodes and edges are known by their positions.
-/

namespace Kirchhoff

/-- The nodes and edges of a circuit. -/
structure Topology where
  nodes : List Node := []
  edges : List Edge := []

namespace Topology

/-- The topology without nodes. -/
def empty : Topology := {}

/-- There are no nodes. -/
def isEmpty (t : Topology) : Bool := t.nodes.isEmpty

/-- The node is listed. -/
def hasNode (t : Topology) (n : Node) : Bool := t.nodes.any (· == n)

/-- An edge of that name is listed. -/
def hasEdge (t : Topology) (e : Edge) : Bool := t.edges.any (· == e)

/-- Lists a node, unless it is listed already. -/
def addNode (t : Topology) (n : Node) : Topology :=
  if t.hasNode n then t else { t with nodes := t.nodes ++ [n] }

/-- Lists an edge and its two nodes, unless an edge of its name is listed already. -/
def addEdge (t : Topology) (e : Edge) : Topology :=
  if t.hasEdge e then t
  else
    let t := (t.addNode e.first).addNode e.second
    { t with edges := t.edges ++ [e] }

/-- The edges that end at a node. -/
def edgesAt (t : Topology) (n : Node) : List Edge := t.edges.filter (·.touches n)

/-- The edge at a position. -/
def edge (t : Topology) (i : Nat) : Edge := t.edges.getD i default

/-- The node at a position. -/
def node (t : Topology) (i : Nat) : Node := t.nodes.getD i default

end Topology

/-! ### The view by positions -/

/-- A circuit whose nodes and edges are known by their positions: which nodes are ground,
and the first and second node of each edge. -/
structure Graph where
  ground : List Bool
  ends : List (Nat × Nat)

namespace Graph

/-- The number of nodes. -/
def nodeCount (g : Graph) : Nat := g.ground.length

/-- The number of edges. -/
def edgeCount (g : Graph) : Nat := g.ends.length

/-- The node is ground. -/
def isGround (g : Graph) (n : Nat) : Bool := g.ground.getD n false

/-- The node that an edge leaves. -/
def first (g : Graph) (e : Nat) : Nat := (g.ends.getD e (0, 0)).1

/-- The node that an edge enters. -/
def second (g : Graph) (e : Nat) : Nat := (g.ends.getD e (0, 0)).2

/-- The edge begins and ends at one node. -/
def isSelfLoop (g : Graph) (e : Nat) : Bool := g.first e == g.second e

/-- The edge ends at the node. -/
def touches (g : Graph) (e n : Nat) : Bool := g.first e == n || g.second e == n

/-- The edges that end at a node, in their order. -/
def incident (g : Graph) (n : Nat) : List Nat :=
  (List.range g.edgeCount).filter fun e => g.touches e n

/-- Enters an edge in the lists of its two nodes, once if they are the same. -/
def enterEdge (lists : List (List Nat)) : (Nat × Nat) × Nat → List (List Nat)
  | ((m, n), e) =>
    let lists := lists.modify m (· ++ [e])
    if n != m then lists.modify n (· ++ [e]) else lists

/-- The edges that end at each of the nodes, gathered in one sweep over the edges. -/
def incidence (g : Graph) : List (List Nat) :=
  g.ends.zipIdx.foldl enterEdge (List.replicate g.nodeCount [])

/-- The edges join the same two nodes, in either direction. -/
def isParallel (g : Graph) (d e : Nat) : Bool :=
  (g.first d == g.first e && g.second d == g.second e) ||
    (g.first d == g.second e && g.second d == g.first e)

end Graph

/-- The position of a node in a topology, zero for one that is not listed. -/
def Topology.position (t : Topology) (n : Node) : Nat := (t.nodes.findIdx? (· == n)).getD 0

/-- The view of a topology by positions. -/
def Topology.graph (t : Topology) : Graph where
  ground := t.nodes.map (·.isGround)
  ends := t.edges.map fun e => (t.position e.first, t.position e.second)

end Kirchhoff
