import Kirchhoff.Proofs.Network.Topology

/-!
# The view by positions

A topology that is built by listing nodes and edges is seen by positions as it is by names
(`Topology.IsRegistered.isViewOf_graph`). The ends of every edge are listed, so that their positions
are found and zero is never put for a node that is missing. One sweep over the edges gathers, for
each node, the edges that end there, in their order (`Graph.incidence_eq`), and these are the edges
that touch the node by its name.
-/

namespace Kirchhoff

namespace Graph

variable {g : Graph} {lists : List (List ℕ)} {n : ℕ}

/-! ### The sweep over the edges -/

/-- An edge is entered at the end of the lists of its nodes. -/
theorem getElem?_enterEdge (ends : ℕ × ℕ) (e : ℕ) :
    (enterEdge lists (ends, e))[n]? =
      lists[n]?.map fun es => if ends.1 == n || ends.2 == n then es ++ [e] else es := by
  obtain ⟨first, second⟩ := ends
  by_cases hsame : second = first
  · subst hsame
    simp [enterEdge, List.getElem?_modify]
  · have hdistinct : first = n → second ≠ n := fun hfirst hsecond =>
      hsame (hsecond.trans hfirst.symm)
    by_cases hfirst : first = n
    · simp [enterEdge, hfirst, hdistinct hfirst]
    · simp [enterEdge, List.getElem?_modify, hsame, hfirst]

/-- After some edges, the list of a node has gained those of them that end there. -/
theorem getElem?_foldl_enterEdge (es : List ((ℕ × ℕ) × ℕ)) :
    (es.foldl enterEdge lists)[n]? =
      lists[n]?.map (· ++ (es.filter fun p => p.1.1 == n || p.1.2 == n).map (·.2)) := by
  induction es generalizing lists with
  | nil => simp
  | cons p es ih =>
    obtain ⟨ends, e⟩ := p
    rw [List.foldl_cons, ih, getElem?_enterEdge, Option.map_map, List.filter_cons]
    refine congrArg (Option.map · lists[n]?) (funext fun ds => ?_)
    by_cases hends : (ends.1 == n || ends.2 == n) = true
    · simp [hends]
    · simp [hends]

theorem zipIdx_ends (g : Graph) :
    g.ends.zipIdx = (List.range g.edgeCount).map fun e => ((g.first e, g.second e), e) :=
  List.ext_getElem (by simp [edgeCount]) fun e he _ => by
    simp at he
    simp [first, second, he]

/-- The sweep gathers the edges that end at each node, in their order. -/
theorem incidence_eq (g : Graph) : g.incidence = (List.range g.nodeCount).map g.incident := by
  refine List.ext_getElem? fun n => ?_
  rw [incidence, getElem?_foldl_enterEdge, zipIdx_ends, List.filter_map, List.map_map,
    List.getElem?_map, List.getElem?_replicate]
  by_cases hn : n < g.nodeCount
  · simp [hn, incident, touches, Function.comp_def]
  · simp [hn]

/-- The edges at a node are listed in their order, each once. -/
theorem pairwise_incident : (g.incident n).Pairwise (· < ·) :=
  List.Pairwise.filter _ List.pairwise_lt_range

/-! ### What a view shows -/

/-- The view by positions shows what the lists of nodes and edges say. -/
structure IsViewOf (g : Graph) (t : Topology) : Prop where
  /-- Both nodes of every edge are listed, so that zero is put for none of them. -/
  listed : ∀ e ∈ t.edges, t.hasNode e.first = true ∧ t.hasNode e.second = true
  /-- Every edge has its ends. -/
  length_ends : g.ends.length = t.edges.length
  /-- The ends of an edge are the positions at which its nodes are found. -/
  ends : ∀ i < t.edges.length, ∃ a b, g.ends[i]? = some (a, b) ∧
    t.nodes.findIdx? (· == (t.edge i).first) = some a ∧
    t.nodes.findIdx? (· == (t.edge i).second) = some b
  /-- Every node has its list of edges. -/
  length_incidence : g.incidence.length = t.nodes.length
  /-- The list of a node has the edges that touch the node, by whatever mark it is given, in
  their order and each once. -/
  incidence : ∀ j < t.nodes.length, ∃ es, g.incidence[j]? = some es ∧ es.Pairwise (· < ·) ∧
    ∀ n : Node, (n == t.node j) = true → es.map (t.edges[·]?) = (t.edgesAt n).map some
  /-- Edges are parallel by their positions exactly when they are by their nodes. -/
  parallel : ∀ i < t.edges.length, ∀ j < t.edges.length,
    g.isParallel i j = (t.edge i).isParallelTo (t.edge j)

end Graph

namespace Topology

variable {t : Topology} {m n : Node} {i j : ℕ}

/-! ### Positions that are found -/

/-- The position of a listed node is where its name is found. -/
theorem findIdx?_eq_position (h : t.hasNode n = true) :
    t.nodes.findIdx? (· == n) = some (t.position n) := by
  obtain ⟨i, hi⟩ := Option.isSome_iff_exists.1 (List.findIdx?_isSome.trans h)
  rw [position, hi, Option.getD_some]

theorem touches_congr {e : Edge} (h : m.name = n.name) : e.touches m = e.touches n := by
  have hbeq (k : Node) : (k == m) = (k == n) := by
    rw [Bool.eq_iff_iff, Node.beq_iff, Node.beq_iff, h]
  rw [Edge.touches, Edge.touches, hbeq, hbeq]

/-- The edges at the position of a node are those that touch it. -/
theorem IsRegistered.map_incident (ht : t.IsRegistered) (hn : t.hasNode n = true) :
    (t.graph.incident (t.position n)).map (t.edges[·]?) = (t.edgesAt n).map some := by
  have hname := name_node_position hn
  have htouches : ∀ i ∈ List.range t.edges.length,
      t.graph.touches i (t.position n) = (t.edge i).touches n := fun i hi => by
    rw [← ht.touches_graph (List.mem_range.1 hi) (position_lt hn), touches_congr hname]
  have hedges : t.edgesAt n =
      ((List.range t.edges.length).filter fun i => (t.edge i).touches n).map t.edge := by
    calc t.edges.filter (·.touches n)
      _ = ((List.range t.edges.length).map t.edge).filter (·.touches n) := by rw [map_edge_range]
      _ = _ := List.filter_map
  rw [hedges, List.map_map, Graph.incident, edgeCount_graph, List.filter_congr htouches]
  refine List.map_congr_left fun i hi => ?_
  have hlt := List.mem_range.1 (List.mem_filter.1 hi).1
  simp [edge, hlt]

/-- **The view of a built topology.** In a topology that is built by listing nodes and edges, every
node that an edge names is found, by whatever mark, and what the sweep over the positions gathers
for a node is what is found by its name. -/
theorem IsRegistered.isViewOf_graph (h : t.IsRegistered) : t.graph.IsViewOf t where
  listed := h.hasNode
  length_ends := edgeCount_graph
  ends i hi := by
    obtain ⟨hfirst, hsecond⟩ := h.hasNode _ (edge_mem hi)
    refine ⟨_, _, ?_, findIdx?_eq_position hfirst, findIdx?_eq_position hsecond⟩
    simp [graph, edge, hi]
  length_incidence := by
    rw [Graph.incidence_eq, List.length_map, List.length_range, nodeCount_graph]
  incidence j hj := by
    refine ⟨t.graph.incident j, ?_, Graph.pairwise_incident, fun n hn => ?_⟩
    · rw [Graph.incidence_eq, List.getElem?_map, nodeCount_graph, List.getElem?_range hj,
        Option.map_some]
    · have hname := Node.beq_iff.1 hn
      have hposition : t.position n = j := (position_congr hname).trans (h.position_node hj)
      rw [← hposition]
      exact h.map_incident (hasNode_iff.2 ⟨_, node_mem hj, hname.symm⟩)
  parallel i hi j hj := h.isParallel_graph hi hj

/-- A ground node that is listed first and named again without its mark, an edge whose name is given
again with other nodes, and a self-loop. -/
theorem isViewOf_graph_renamed :
    let a : Node := ⟨"a", false⟩
    let g : Node := ⟨"g", false⟩
    let t := ((((empty.addNode (.ground "g")).addEdge ⟨g, a, "V0"⟩).addEdge
      ⟨⟨"b", false⟩, g, "V0"⟩).addEdge ⟨a, g, "R0"⟩).addEdge ⟨a, .ground "a", "X0"⟩
    t.IsRegistered ∧ t.graph.ground = [true, false] ∧
      t.graph.ends = [(0, 1), (1, 0), (1, 1)] ∧ t.graph.incidence = [[0, 1], [0, 1, 2]] ∧
      t.graph.IsViewOf t := by
  intro a g t
  have ht : t.IsRegistered :=
    .addEdge _ (.addEdge _ (.addEdge _ (.addEdge _ (.addNode _ .empty))))
  exact ⟨ht, by decide +kernel, by decide +kernel, by decide +kernel, ht.isViewOf_graph⟩

end Topology

end Kirchhoff
