/-!
# Nodes and edges

The terminals of a circuit and the elements between them. A node is known by its name, an
edge by its own. The flow of an edge leaves its first node and enters its second.
-/

namespace Kirchhoff

/-- A node of a circuit. A ground node is a reference for potentials. -/
structure Node where
  name : String
  isGround : Bool := false
deriving Inhabited

namespace Node

/-- The ground node of a name. -/
def ground (name : String) : Node := ⟨name, true⟩

/-- Nodes are the same when their names are. -/
instance : BEq Node := ⟨fun m n => m.name == n.name⟩

/-- Nodes are listed by name. -/
def order (m n : Node) : Ordering := compare m.name n.name

/-- The text of a node: its name, in brackets for a ground node. -/
def text (n : Node) : String := if n.isGround then "[" ++ n.name ++ "]" else n.name

end Node

/-- An element with two terminals. -/
structure Edge where
  first : Node
  second : Node
  name : String
deriving Inhabited

namespace Edge

/-- The edge between two nodes under a name. The empty name stands for the names of the
two nodes, joined by an underscore. -/
def between (first second : Node) (name : String := "") : Edge :=
  ⟨first, second, if name.isEmpty then first.name ++ "_" ++ second.name else name⟩

/-- Edges are the same when their names are. -/
instance : BEq Edge := ⟨fun d e => d.name == e.name⟩

/-- Edges are listed by name. -/
def order (d e : Edge) : Ordering := compare d.name e.name

/-- The edge ends at the node. -/
def touches (e : Edge) (n : Node) : Bool := e.first == n || e.second == n

/-- The edges join the same two nodes, in either direction. -/
def isParallelTo (d e : Edge) : Bool :=
  (d.first == e.first && d.second == e.second) || (d.first == e.second && d.second == e.first)

end Edge

end Kirchhoff
