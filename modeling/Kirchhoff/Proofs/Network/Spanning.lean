import Kirchhoff.Proofs.Network.Growth
import Kirchhoff.Proofs.Network.Laws

/-!
# Spanning trees of connected topologies

In a topology whose nodes are all joined and one of them is ground, the edges of the spanning tree
join every node to a ground node. The tree is full, with one edge less than there are nodes, exactly
when its edges join the ground nodes to each other as well (`hasFullTree_iff_joined`). With one
ground node this is so; with several, each may be left with a tree of its own, and the analysis
reports a shortfall (`exists_shortfall_of_grounds`).
-/

namespace Kirchhoff

/-- The names of nodes with an edge of a list between them. -/
def Edge.joining (es : List Edge) : SimpleGraph String :=
  .fromRel fun a b => ∃ e ∈ es, e.first.name = a ∧ e.second.name = b

/-- A path along the edges of a list joins the nodes. -/
def Edge.Join (es : List Edge) (m n : Node) : Prop := (joining es).Reachable m.name n.name

theorem Edge.join_of_mem {es : List Edge} {e : Edge} (he : e ∈ es) : Join es e.first e.second :=
  reachable_of_rel ⟨e, he, rfl, rfl⟩

namespace Topology

/-- Paths along the edges join all nodes. -/
def IsConnected (t : Topology) : Prop := ∀ m ∈ t.nodes, ∀ n ∈ t.nodes, Edge.Join t.edges m n

variable {t : Topology} {is : List ℕ} {m n : ℕ}

theorem isConnected_of_join {r : Node} (h : ∀ n ∈ t.nodes, Edge.Join t.edges r n) :
    t.IsConnected := fun m hm n hn => (h m hm).symm.trans (h n hn)

/-- Edges join the same nodes by position as by name. -/
theorem IsRegistered.reachable_iff_join (ht : t.IsRegistered) (his : ∀ i ∈ is, i < t.edges.length)
    (hm : m < t.nodes.length) (hn : n < t.nodes.length) :
    (t.graph.joining is).Reachable m n ↔ Edge.Join (is.map t.edge) (t.node m) (t.node n) := by
  constructor
  · intro h
    refine Graph.joined_induction
      (motive := fun k => Edge.Join (is.map t.edge) (t.node m) (t.node k)) h (fun i hi => ?_) .rfl
    obtain ⟨hfirst, hsecond⟩ := ht.hasNode _ (edge_mem (his i hi))
    have hedge := Edge.join_of_mem (List.mem_map_of_mem (f := t.edge) hi)
    rw [first_graph (his i hi), second_graph (his i hi), Edge.Join, Edge.Join,
      name_node_position hfirst, name_node_position hsecond]
    exact ⟨fun h => h.trans hedge, fun h => h.trans hedge.symm⟩
  · intro h
    have hposition (k : ℕ) (hk : k < t.nodes.length) :
        t.position ⟨(t.node k).name, false⟩ = k :=
      (position_congr rfl).trans (ht.position_node hk)
    rw [← hposition n hn]
    refine reachable_induction
      (motive := fun name => (t.graph.joining is).Reachable m (t.position ⟨name, false⟩)) h
      (fun a b hab => ?_) (by rw [hposition m hm])
    obtain ⟨e, he, rfl, rfl⟩ := hab
    obtain ⟨i, hi, rfl⟩ := List.mem_map.1 he
    have hedge := Graph.reachable_of_mem (g := t.graph) hi
    rw [first_graph (his i hi), second_graph (his i hi)] at hedge
    exact ⟨fun h => h.trans hedge, fun h => h.trans hedge.symm⟩

/-! ### The edges of the tree -/

/-- The edges of the spanning tree. -/
def treeEdges (t : Topology) : List Edge := t.graph.forest.edges.map t.edge

/-- The edges of the tree join the same nodes by position as by name. -/
theorem IsRegistered.reachable_iff_join_treeEdges (ht : t.IsRegistered) (hm : m < t.nodes.length)
    (hn : n < t.nodes.length) :
    (t.graph.joining t.graph.forest.edges).Reachable m n ↔
      Edge.Join t.treeEdges (t.node m) (t.node n) :=
  ht.reachable_iff_join
    (fun i hi => edgeCount_graph ▸ (Forest.isGrown_forest t.graph).lt_edgeCount i hi) hm hn

theorem lt_of_isGround (h : t.graph.isGround n = true) : n < t.nodes.length :=
  nodeCount_graph ▸ Graph.lt_nodeCount_of_isGround h

theorem IsConnected.hangsTogether (hconnected : t.IsConnected) (ht : t.IsRegistered)
    (hm : m < t.nodes.length) : t.graph.HangsTogether m := by
  intro n hn
  rw [nodeCount_graph] at hn
  rw [edgeCount_graph, ht.reachable_iff_join (fun i => List.mem_range.1) hm hn, map_edge_range]
  exact hconnected _ (node_mem hm) _ (node_mem hn)

theorem exists_ground (h : ∃ n ∈ t.nodes, n.isGround = true) :
    ∃ r < t.nodes.length, t.graph.isGround r = true := by
  obtain ⟨n, hn, hground⟩ := h
  obtain ⟨r, hr, rfl⟩ := exists_node hn
  exact ⟨r, hr, isGround_graph ▸ hground⟩

/-- The tree of a connected topology joins every node to a ground node. -/
theorem IsConnected.exists_ground_join (hconnected : t.IsConnected) (ht : t.IsRegistered)
    (hground : ∃ n ∈ t.nodes, n.isGround = true) :
    ∀ n ∈ t.nodes, ∃ m ∈ t.nodes, m.isGround = true ∧ Edge.Join t.treeEdges m n := by
  intro n hn
  obtain ⟨r, hr, hrground⟩ := exists_ground hground
  obtain ⟨j, hj, rfl⟩ := exists_node hn
  obtain ⟨i, hi, hij⟩ :=
    (hconnected.hangsTogether ht hr).exists_root ht.isClosed hrground (nodeCount_graph ▸ hj)
  have hlt := lt_of_isGround hi
  exact ⟨t.node i, node_mem hlt, isGround_graph ▸ hi,
    (ht.reachable_iff_join_treeEdges hlt hj).1 hij⟩

/-- The tree of a connected topology is full when it joins the ground nodes to each other. -/
theorem IsConnected.length_treeEdges_iff (hconnected : t.IsConnected) (ht : t.IsRegistered)
    (hground : ∃ n ∈ t.nodes, n.isGround = true) :
    t.treeEdges.length = t.nodes.length - 1 ↔ ∀ m ∈ t.nodes, ∀ n ∈ t.nodes,
      m.isGround = true → n.isGround = true → Edge.Join t.treeEdges m n := by
  obtain ⟨r, hr, hrground⟩ := exists_ground hground
  rw [treeEdges, List.length_map, ← nodeCount_graph]
  refine ((hconnected.hangsTogether ht hr).length_forest_iff ht.isClosed hrground).trans ?_
  constructor
  · intro hjoined m hm n hn hmground hnground
    obtain ⟨i, hi, rfl⟩ := exists_node hm
    obtain ⟨j, hj, rfl⟩ := exists_node hn
    exact (ht.reachable_iff_join_treeEdges hi hj).1
      (hjoined i j (isGround_graph ▸ hmground) (isGround_graph ▸ hnground))
  · intro hjoined i j hi hj
    have hilt := lt_of_isGround hi
    have hjlt := lt_of_isGround hj
    exact (ht.reachable_iff_join_treeEdges hilt hjlt).2 (hjoined _ (node_mem hilt) _
      (node_mem hjlt) (isGround_graph ▸ hi) (isGround_graph ▸ hj))

theorem hasFullTree_iff_length {α : Type} [Scalar α] {k : Context α} :
    (t.analyze k).1.HasFullTree ↔ t.treeEdges.length = t.nodes.length - 1 := by
  rw [hasFullTree_iff, treeEdges, List.length_map, Graph.treeSize, nodeCount_graph]

/-- **A connected topology with a ground node has every node joined to ground by the spanning
tree.** The tree is full when it joins the ground nodes to each other as well, which it does when
there is only one. -/
theorem hasFullTree_iff_joined {α : Type} [Scalar α] (ht : t.IsRegistered)
    (hconnected : t.IsConnected) (hground : ∃ n ∈ t.nodes, n.isGround = true) (k : Context α) :
    let tree := (t.analyze k).1.tree.map t.edge
    (∀ n ∈ t.nodes, ∃ m ∈ t.nodes, m.isGround = true ∧ Edge.Join tree m n) ∧
    ((t.analyze k).1.HasFullTree ↔ tree.length = t.nodes.length - 1) ∧
    ((t.analyze k).1.HasFullTree ↔ ∀ m ∈ t.nodes, ∀ n ∈ t.nodes,
      m.isGround = true → n.isGround = true → Edge.Join tree m n) ∧
    ((∀ m ∈ t.nodes, ∀ n ∈ t.nodes, m.isGround = true → n.isGround = true → m = n) →
      (t.analyze k).1.HasFullTree) := by
  intro tree
  have htree : tree = t.treeEdges := rfl
  have hfull : (t.analyze k).1.HasFullTree ↔ ∀ m ∈ t.nodes, ∀ n ∈ t.nodes,
      m.isGround = true → n.isGround = true → Edge.Join tree m n :=
    hasFullTree_iff_length.trans (hconnected.length_treeEdges_iff ht hground)
  rw [htree] at hfull ⊢
  refine ⟨hconnected.exists_ground_join ht hground, hasFullTree_iff_length, hfull, fun hone => ?_⟩
  refine hfull.2 fun m hm n hn hmground hnground => ?_
  rw [hone m hm n hn hmground hnground]
  exact .rfl

/-- Two ground nodes, each of them at a node of its own: the topology is connected, but the tree
joins the ground nodes only to those, and the analysis reports that an edge is missing. -/
theorem exists_shortfall_of_grounds :
    let a : Node := ⟨"a", false⟩
    let b : Node := ⟨"b", false⟩
    let left := Node.ground "g1"
    let right := Node.ground "g2"
    let t := ((empty.addEdge ⟨a, left, "R0"⟩).addEdge ⟨b, right, "R1"⟩).addEdge ⟨a, b, "R2"⟩
    let k : Context Rat := .new
    t.IsRegistered ∧ t.IsConnected ∧ (∃ n ∈ t.nodes, n.isGround = true) ∧
      (t.analyze k).1.tree.length ≠ t.nodes.length - 1 ∧ ¬ (t.analyze k).1.HasFullTree := by
  intro a b left right t k
  have ht : t.IsRegistered := .addEdge _ (.addEdge _ (.addEdge _ .empty))
  have hnodes : t.nodes = [a, left, b, right] := by decide +kernel
  have hedges : t.edges = [⟨a, left, "R0"⟩, ⟨b, right, "R1"⟩, ⟨a, b, "R2"⟩] := by decide +kernel
  have hlength : (t.analyze k).1.tree.length ≠ t.nodes.length - 1 := by decide +kernel
  have hshort : t.graph.forest.edges.length ≠ t.graph.treeSize := by decide +kernel
  clear_value t
  have hjoin {e : Edge} (he : e ∈ t.edges) : Edge.Join t.edges e.first e.second :=
    Edge.join_of_mem he
  have hleft : Edge.Join t.edges a left := hjoin (e := ⟨a, left, "R0"⟩) (by simp [hedges])
  have hright : Edge.Join t.edges b right := hjoin (e := ⟨b, right, "R1"⟩) (by simp [hedges])
  have hmiddle : Edge.Join t.edges a b := hjoin (e := ⟨a, b, "R2"⟩) (by simp [hedges])
  have hconnected : t.IsConnected := by
    refine isConnected_of_join (r := a) ?_
    rw [hnodes]
    simp only [List.forall_mem_cons]
    exact ⟨.rfl, hleft, hmiddle, hmiddle.trans hright, by simp⟩
  have hground : ∃ n ∈ t.nodes, n.isGround = true := ⟨left, by simp [hnodes], rfl⟩
  exact ⟨ht, hconnected, hground, hlength, fun h => hshort (hasFullTree_iff.1 h)⟩

/-- A circuit with a loop, a self-loop and two ground nodes, which the tree joins. -/
theorem hasFullTree_iff_joined_grounds :
    let a : Node := ⟨"a", false⟩
    let b : Node := ⟨"b", false⟩
    let gnd := Node.ground "gnd"
    let ref := Node.ground "ref"
    let t := ((((empty.addEdge ⟨gnd, a, "V0"⟩).addEdge ⟨a, b, "R0"⟩).addEdge
      ⟨b, gnd, "R1"⟩).addEdge ⟨a, ref, "R2"⟩).addEdge ⟨a, a, "X0"⟩
    let k : Context Rat := .new
    let tree := (t.analyze k).1.tree.map t.edge
    t.IsConnected ∧ (t.analyze k).1.HasFullTree ∧ tree.length = 3 ∧ Edge.Join tree gnd ref ∧
      ∀ n ∈ t.nodes, ∃ m ∈ t.nodes, m.isGround = true ∧ Edge.Join tree m n := by
  intro a b gnd ref t k tree
  have ht : t.IsRegistered := .addEdge _ (.addEdge _ (.addEdge _ (.addEdge _ (.addEdge _ .empty))))
  have hnodes : t.nodes = [gnd, a, b, ref] := by decide +kernel
  have hedges : t.edges = [⟨gnd, a, "V0"⟩, ⟨a, b, "R0"⟩, ⟨b, gnd, "R1"⟩, ⟨a, ref, "R2"⟩,
    ⟨a, a, "X0"⟩] := by decide +kernel
  have hlength : tree.length = 3 := by decide +kernel
  clear_value t
  have hjoin {e : Edge} (he : e ∈ t.edges) : Edge.Join t.edges e.first e.second :=
    Edge.join_of_mem he
  have hsource : Edge.Join t.edges gnd a := hjoin (e := ⟨gnd, a, "V0"⟩) (by simp [hedges])
  have hload : Edge.Join t.edges b gnd := hjoin (e := ⟨b, gnd, "R1"⟩) (by simp [hedges])
  have hbridge : Edge.Join t.edges a ref := hjoin (e := ⟨a, ref, "R2"⟩) (by simp [hedges])
  have hconnected : t.IsConnected := by
    refine isConnected_of_join (r := gnd) ?_
    rw [hnodes]
    simp only [List.forall_mem_cons]
    exact ⟨.rfl, hsource, hload.symm, hsource.trans hbridge, by simp⟩
  have hgnd : gnd ∈ t.nodes := by simp [hnodes]
  have href : ref ∈ t.nodes := by simp [hnodes]
  obtain ⟨hrooted, hcount, hgrounds, -⟩ := hasFullTree_iff_joined ht hconnected ⟨gnd, hgnd, rfl⟩ k
  have hfull : (t.analyze k).1.HasFullTree := hcount.2 (hlength.trans (by rw [hnodes]; rfl))
  exact ⟨hconnected, hfull, hlength, hgrounds.1 hfull gnd hgnd ref href rfl rfl, hrooted⟩

end Topology

end Kirchhoff
