import Kirchhoff.Proofs.Network.Cycle
import Kirchhoff.Network.Topology

/-!
# Registered topologies

A topology that is built by listing nodes and edges lists the nodes of all its edges. Positions
then stand for nodes as names do (`position_eq_iff`), so that the view by positions has the
parallel edges and the potential differences of the topology (`isParallel_graph`,
`difference_graph`).
-/

namespace Kirchhoff

deriving instance DecidableEq for Node, Edge

theorem Node.beq_iff {m n : Node} : (m == n) = true ↔ m.name = n.name :=
  beq_iff_eq (a := m.name)

theorem Edge.beq_iff {d e : Edge} : (d == e) = true ↔ d.name = e.name :=
  beq_iff_eq (a := d.name)

/-- The potential across an edge, for given potentials of the nodes by name. -/
def Edge.difference (φ : String → Rat) (e : Edge) : Rat := φ e.second.name - φ e.first.name

/-- The edges join the same nodes in opposite directions. -/
structure Edge.IsReverseOf (d e : Edge) : Prop where
  first : d.first.name = e.second.name
  second : d.second.name = e.first.name

/-- Parallel edges have the same two ends, in one order or the other. -/
theorem Edge.isParallelTo_iff {d e : Edge} : d.isParallelTo e = true ↔
    (d.first.name = e.first.name ∧ d.second.name = e.second.name) ∨ d.IsReverseOf e := by
  rw [isParallelTo, Bool.or_eq_true, Bool.and_eq_true, Bool.and_eq_true]
  simp only [Node.beq_iff]
  exact or_congr_right ⟨fun h => ⟨h.1, h.2⟩, fun h => ⟨h.first, h.second⟩⟩

/-- Edges in opposite directions have the same potential only when it is zero. -/
theorem Edge.IsReverseOf.difference_eq_iff {d e : Edge} (h : d.IsReverseOf e) {φ : String → Rat} :
    d.difference φ = e.difference φ ↔ φ d.first.name = φ d.second.name := by
  rw [difference, difference, ← h.first, ← h.second]
  constructor
  · intro heq
    linarith
  · intro heq
    rw [heq]

namespace Topology

/-- The topology is built by listing nodes and edges. -/
inductive IsRegistered : Topology → Prop
  /-- Nothing is listed. -/
  | empty : IsRegistered empty
  /-- A node is listed. -/
  | addNode {t : Topology} (n : Node) (h : IsRegistered t) : IsRegistered (t.addNode n)
  /-- An edge is listed. -/
  | addEdge {t : Topology} (e : Edge) (h : IsRegistered t) : IsRegistered (t.addEdge e)

variable {t : Topology} {m n : Node} {e : Edge} {i j : ℕ}

/-! ### The nodes of the edges -/

/-- A node is known by its name. -/
theorem hasNode_iff : t.hasNode n = true ↔ ∃ m ∈ t.nodes, m.name = n.name := by
  simp only [hasNode, List.any_eq_true, Node.beq_iff]

theorem hasNode_addNode : (t.addNode n).hasNode n = true := by
  unfold addNode
  split
  · assumption
  · exact hasNode_iff.2 ⟨n, by simp, rfl⟩

/-- Adding a node removes none. -/
theorem hasNode_addNode_of_hasNode (h : t.hasNode m = true) : (t.addNode n).hasNode m = true := by
  unfold addNode
  split
  · exact h
  · obtain ⟨k, hk, hname⟩ := hasNode_iff.1 h
    exact hasNode_iff.2 ⟨k, List.mem_append_left _ hk, hname⟩

theorem edges_addNode : (t.addNode n).edges = t.edges := by
  unfold addNode
  split <;> rfl

theorem edges_subset_addEdge (t : Topology) (e : Edge) : t.edges ⊆ (t.addEdge e).edges := by
  unfold addEdge
  split
  · exact List.Subset.refl _
  · simp [edges_addNode]

/-- An edge of the name is listed afterwards. -/
theorem exists_name_addEdge (t : Topology) (e : Edge) :
    ∃ d ∈ (t.addEdge e).edges, d.name = e.name := by
  unfold addEdge
  split
  · rename_i hlisted
    obtain ⟨d, hd, hbeq⟩ := List.any_eq_true.1 hlisted
    exact ⟨d, hd, Edge.beq_iff.1 hbeq⟩
  · exact ⟨e, List.mem_append_right _ (List.mem_singleton_self e), rfl⟩

/-- Both nodes of every edge are listed. -/
theorem IsRegistered.hasNode (h : t.IsRegistered) :
    ∀ e ∈ t.edges, t.hasNode e.first = true ∧ t.hasNode e.second = true := by
  induction h with
  | empty => simp [Topology.empty]
  | addNode n _ ih =>
    rw [edges_addNode]
    exact fun e he => (ih e he).imp hasNode_addNode_of_hasNode hasNode_addNode_of_hasNode
  | addEdge e _ ih =>
    unfold Topology.addEdge
    split
    · exact ih
    · intro d hd
      simp only [edges_addNode, List.mem_append, List.mem_singleton] at hd
      obtain hd | rfl := hd
      · exact (ih d hd).imp (hasNode_addNode_of_hasNode ∘ hasNode_addNode_of_hasNode)
          (hasNode_addNode_of_hasNode ∘ hasNode_addNode_of_hasNode)
      · exact ⟨hasNode_addNode_of_hasNode hasNode_addNode, hasNode_addNode⟩

/-- No two edges have the same name. -/
theorem IsRegistered.nodup_names (h : t.IsRegistered) : (t.edges.map (·.name)).Nodup := by
  induction h with
  | empty => exact List.nodup_nil
  | addNode n _ ih => rwa [edges_addNode]
  | @addEdge t e _ ih =>
    unfold Topology.addEdge
    split
    · exact ih
    · rename_i hnot
      simp only [edges_addNode, List.map_append, List.nodup_append]
      refine ⟨ih, List.nodup_singleton _, fun name hname other hother => ?_⟩
      obtain ⟨d, hd, rfl⟩ := List.mem_map.1 hname
      rw [List.mem_singleton.1 hother]
      exact fun heq => hnot (List.any_eq_true.2 ⟨d, hd, Edge.beq_iff.2 heq⟩)

theorem nodup_names_addNode (h : (t.nodes.map (·.name)).Nodup) :
    ((t.addNode n).nodes.map (·.name)).Nodup := by
  unfold addNode
  split
  · exact h
  · rename_i hnot
    rw [List.map_append, List.nodup_append]
    refine ⟨h, List.nodup_singleton _, fun name hname other hother => ?_⟩
    obtain ⟨m, hm, rfl⟩ := List.mem_map.1 hname
    rw [List.mem_singleton.1 hother]
    exact fun heq => hnot (hasNode_iff.2 ⟨m, hm, heq⟩)

/-- No two nodes have the same name. -/
theorem IsRegistered.nodup_nodeNames (h : t.IsRegistered) : (t.nodes.map (·.name)).Nodup := by
  induction h with
  | empty => exact List.nodup_nil
  | addNode n _ ih => exact nodup_names_addNode ih
  | addEdge e _ ih =>
    unfold Topology.addEdge
    split
    · exact ih
    · exact nodup_names_addNode (nodup_names_addNode ih)

/-- Edges with the same name are the same edge. -/
theorem IsRegistered.eq_of_name_eq (h : t.IsRegistered) {d : Edge} (hd : d ∈ t.edges)
    (he : e ∈ t.edges) (hname : d.name = e.name) : d = e :=
  List.inj_on_of_nodup_map h.nodup_names hd he hname

/-! ### Positions -/

theorem position_congr (h : m.name = n.name) : t.position m = t.position n := by
  have heq : (fun k : Node => k == m) = fun k => k == n := funext fun k => by
    rw [Bool.eq_iff_iff, Node.beq_iff, Node.beq_iff, h]
  rw [position, position, heq]

/-- A node is found at its position. -/
theorem getElem?_position (h : t.hasNode n = true) :
    ∃ m, t.nodes[t.position n]? = some m ∧ m.name = n.name := by
  obtain ⟨i, hi⟩ := Option.isSome_iff_exists.1 (List.findIdx?_isSome.trans h)
  obtain ⟨hlt, hbeq, -⟩ := List.findIdx?_eq_some_iff_getElem.1 hi
  refine ⟨t.nodes[i], ?_, Node.beq_iff.1 hbeq⟩
  rw [position, hi, Option.getD_some, List.getElem?_eq_getElem hlt]

theorem position_lt (h : t.hasNode n = true) : t.position n < t.nodes.length := by
  obtain ⟨m, hm, -⟩ := getElem?_position h
  exact (List.getElem?_eq_some_iff.1 hm).1

theorem name_node_position (h : t.hasNode n = true) : (t.node (t.position n)).name = n.name := by
  obtain ⟨m, hm, hname⟩ := getElem?_position h
  rw [node, List.getD, hm, Option.getD_some, hname]

/-- Positions tell nodes apart as names do. -/
theorem position_eq_iff (hm : t.hasNode m = true) (hn : t.hasNode n = true) :
    t.position m = t.position n ↔ m.name = n.name := by
  refine ⟨fun h => ?_, position_congr⟩
  rw [← name_node_position hm, h, name_node_position hn]

theorem node_mem (h : i < t.nodes.length) : t.node i ∈ t.nodes := by
  rw [node, List.getD, List.getElem?_eq_getElem h]
  exact List.getElem_mem h

theorem exists_node (h : n ∈ t.nodes) : ∃ i < t.nodes.length, t.node i = n := by
  obtain ⟨i, hi, rfl⟩ := List.getElem_of_mem h
  exact ⟨i, hi, by rw [node, List.getD, List.getElem?_eq_getElem hi, Option.getD_some]⟩

theorem hasNode_of_mem (h : n ∈ t.nodes) : t.hasNode n = true := hasNode_iff.2 ⟨n, h, rfl⟩

/-- A node is found at its own position. -/
theorem IsRegistered.position_node (ht : t.IsRegistered) (h : i < t.nodes.length) :
    t.position (t.node i) = i := by
  obtain ⟨m, hm, hname⟩ := getElem?_position (hasNode_of_mem (node_mem h))
  refine ((List.getElem?_inj (by simpa using h) ht.nodup_nodeNames).1 ?_).symm
  rw [List.getElem?_map, List.getElem?_map, hm, Option.map_some, hname]
  simp [node, h]

/-- Positions go through the nodes in order. -/
theorem map_node_range : (List.range t.nodes.length).map t.node = t.nodes :=
  List.ext_getElem (by simp) fun i _ h => by simp [node, h]

theorem map_edge_range : (List.range t.edges.length).map t.edge = t.edges :=
  List.ext_getElem (by simp) fun i _ h => by simp [edge, h]

/-! ### The view by positions -/

theorem edgeCount_graph : t.graph.edgeCount = t.edges.length := List.length_map ..

theorem nodeCount_graph : t.graph.nodeCount = t.nodes.length := List.length_map ..

theorem edge_mem (h : i < t.edges.length) : t.edge i ∈ t.edges := by
  rw [edge, List.getD, List.getElem?_eq_getElem h]
  exact List.getElem_mem h

theorem exists_edge (h : e ∈ t.edges) : ∃ i < t.edges.length, t.edge i = e := by
  obtain ⟨i, hi, rfl⟩ := List.getElem_of_mem h
  exact ⟨i, hi, by rw [edge, List.getD, List.getElem?_eq_getElem hi, Option.getD_some]⟩

/-- The view has the positions of the ends of every edge. -/
theorem ends_graph (h : i < t.edges.length) :
    t.graph.ends.getD i (0, 0) = (t.position (t.edge i).first, t.position (t.edge i).second) := by
  simp [graph, edge, h]

theorem first_graph (h : i < t.edges.length) : t.graph.first i = t.position (t.edge i).first := by
  rw [Graph.first, ends_graph h]

theorem second_graph (h : i < t.edges.length) :
    t.graph.second i = t.position (t.edge i).second := by
  rw [Graph.second, ends_graph h]

/-- The view has the ground nodes at their positions. -/
theorem isGround_graph : t.graph.isGround i = (t.node i).isGround := by
  simp only [Graph.isGround, graph, node, List.getD, List.getElem?_map]
  cases t.nodes[i]? <;> rfl

/-- The nodes of an edge are the same by position as by name. -/
theorem IsRegistered.first_beq_node (ht : t.IsRegistered) (hi : i < t.edges.length)
    (hj : j < t.nodes.length) : ((t.edge i).first == t.node j) = (t.graph.first i == j) := by
  obtain ⟨hfirst, -⟩ := ht.hasNode _ (edge_mem hi)
  rw [Bool.eq_iff_iff, Node.beq_iff, beq_iff_eq, first_graph hi,
    ← position_eq_iff hfirst (hasNode_of_mem (node_mem hj)), ht.position_node hj]

theorem IsRegistered.second_beq_node (ht : t.IsRegistered) (hi : i < t.edges.length)
    (hj : j < t.nodes.length) : ((t.edge i).second == t.node j) = (t.graph.second i == j) := by
  obtain ⟨-, hsecond⟩ := ht.hasNode _ (edge_mem hi)
  rw [Bool.eq_iff_iff, Node.beq_iff, beq_iff_eq, second_graph hi,
    ← position_eq_iff hsecond (hasNode_of_mem (node_mem hj)), ht.position_node hj]

/-- A node is touched by the edges that its position is an end of. -/
theorem IsRegistered.touches_graph (ht : t.IsRegistered) (hi : i < t.edges.length)
    (hj : j < t.nodes.length) : (t.edge i).touches (t.node j) = t.graph.touches i j := by
  rw [Edge.touches, ht.first_beq_node hi hj, ht.second_beq_node hi hj, Graph.touches]

/-- All ends in the view are nodes of it. -/
theorem IsRegistered.isClosed (h : t.IsRegistered) : t.graph.IsClosed := by
  intro i hi
  rw [edgeCount_graph] at hi
  obtain ⟨hfirst, hsecond⟩ := h.hasNode _ (edge_mem hi)
  rw [first_graph hi, second_graph hi, nodeCount_graph]
  exact ⟨position_lt hfirst, position_lt hsecond⟩

/-- Parallel edges are the same by position as by name. -/
theorem IsRegistered.isParallel_graph (h : t.IsRegistered) (hi : i < t.edges.length)
    (hj : j < t.edges.length) :
    t.graph.isParallel i j = (t.edge i).isParallelTo (t.edge j) := by
  obtain ⟨hif, his⟩ := h.hasNode _ (edge_mem hi)
  obtain ⟨hjf, hjs⟩ := h.hasNode _ (edge_mem hj)
  rw [Bool.eq_iff_iff, Graph.isParallel_iff, first_graph hi, second_graph hi, first_graph hj,
    second_graph hj, position_eq_iff hif hjf, position_eq_iff his hjs, position_eq_iff hif hjs,
    position_eq_iff his hjf]
  simp [Edge.isParallelTo, Node.beq_iff]

/-- Potentials of nodes have the same differences by position as by name. -/
theorem IsRegistered.difference_graph (h : t.IsRegistered) (φ : String → Rat)
    (hi : i < t.edges.length) :
    t.graph.difference (fun n => φ (t.node n).name) i = (t.edge i).difference φ := by
  obtain ⟨hfirst, hsecond⟩ := h.hasNode _ (edge_mem hi)
  rw [Graph.difference, first_graph hi, second_graph hi, name_node_position hfirst,
    name_node_position hsecond, Edge.difference]

theorem difference_position (φ : ℕ → Rat) (hi : i < t.edges.length) :
    (t.edge i).difference (fun name => φ (t.position ⟨name, false⟩)) = t.graph.difference φ i := by
  rw [Graph.difference, first_graph hi, second_graph hi]
  rfl

end Topology

end Kirchhoff
