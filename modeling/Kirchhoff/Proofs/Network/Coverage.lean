import Kirchhoff.Proofs.Network.Path
import Kirchhoff.Proofs.Network.Spanning

/-!
# What the spanning forest covers

The edges of the spanning forest are acyclic, since they are independent. A node is reached exactly
when an edge taken ends at it, and the nodes reached are closed under the edges of the circuit.
Therefore a forest touches either no node of a part of the circuit that hangs together, or all of
them: it does so when there is a ground node to begin with, and another node to go to
(`mem_forest_iff`). Every node that is touched is joined to some ground node by edges that were
taken; if there is only one in its part of the circuit, that part has a single spanning tree
(`reachable_forest`).
-/

namespace Kirchhoff

namespace Forest

variable {g : Graph} {f f' : Forest} {e n : ℕ}

/-! ### Nodes with an edge -/

/-- Every node reached is an end of an edge taken. -/
def IsTouched (g : Graph) (f : Forest) : Prop :=
  ∀ n ∈ f.nodes, ∃ e ∈ f.edges, g.first e = n ∨ g.second e = n

theorem IsTouched.take (h : f.IsTouched g) : (f.take g e).IsTouched g := by
  intro n hn
  rw [edges_take]
  have he : e ∈ f.edges ++ [e] := List.mem_append_right _ List.mem_cons_self
  obtain rfl | rfl | hn := mem_take.1 hn
  · exact ⟨e, he, .inr rfl⟩
  · exact ⟨e, he, .inl rfl⟩
  · obtain ⟨d, hd, hends⟩ := h n hn
    exact ⟨d, List.mem_append_left _ hd, hends⟩

theorem GrowsTo.isTouched (h : GrowsTo g f f') (hf : f.IsTouched g) : f'.IsTouched g := by
  induction h with
  | refl => exact hf
  | tail _ htake ih =>
    obtain ⟨e, -, rfl⟩ := htake
    exact ih.take

/-- A node is reached exactly when an edge that was taken ends at it. -/
theorem mem_forest_iff_touched :
    n ∈ g.forest.nodes ↔ ∃ e ∈ g.forest.edges, g.first e = n ∨ g.second e = n := by
  constructor
  · exact (growsTo_forest g).isTouched (by simp [IsTouched]) n
  · rintro ⟨e, he, rfl | rfl⟩
    · exact ((isGrown_forest g).reached e he).1
    · exact ((isGrown_forest g).reached e he).2

end Forest

namespace Graph

variable {g : Graph} {es : List ℕ} {e m n r : ℕ}

theorem Acyclic.proper (h : g.Acyclic es) (he : e ∈ es) : g.first e ≠ g.second e := by
  intro hloop
  have hnil : [(⟨e, true⟩ : Leg)] = [] :=
    h (g.first e) [⟨e, true⟩] ⟨rfl, hloop.symm⟩ (by simpa using he) (List.nodup_singleton e)
  cases hnil

theorem acyclic_forest (g : Graph) : g.Acyclic g.forest.edges :=
  (Forest.isGrown_forest g).independent.acyclic

/-! ### Parts of a circuit -/

/-- The edges of the circuit join the nodes. -/
def Hang (g : Graph) (m n : ℕ) : Prop := (g.joining (List.range g.edgeCount)).Reachable m n

theorem hang_of_reachable_forest (h : (g.joining g.forest.edges).Reachable m n) : g.Hang m n :=
  reachable_mono (fun e he => List.mem_range.2 ((Forest.isGrown_forest g).lt_edgeCount e he)) h

/-- The forest reaches a node exactly when it hangs together with a ground node and with a node
besides itself. -/
theorem mem_forest_iff (hclosed : g.IsClosed) :
    n ∈ g.forest.nodes ↔
      (∃ m, g.isGround m = true ∧ g.Hang m n) ∧ ∃ m, m ≠ n ∧ g.Hang n m := by
  constructor
  · intro hn
    obtain ⟨m, hm, hmn⟩ := Forest.isRooted_forest g n hn
    refine ⟨⟨m, hm, hang_of_reachable_forest hmn⟩, ?_⟩
    -- An edge of the forest at the node leads to another one.
    obtain ⟨e, he, hends⟩ := Forest.mem_forest_iff_touched.1 hn
    have hproper := (acyclic_forest g).proper he
    have hedge := hang_of_reachable_forest (reachable_of_mem (g := g) he)
    obtain rfl | rfl := hends
    · exact ⟨g.second e, hproper.symm, hedge⟩
    · exact ⟨g.first e, hproper, hedge.symm⟩
  · rintro ⟨⟨r, hr, hrn⟩, m, hmn, hnm⟩
    obtain hmem | heq := mem_forest_or_eq hclosed hr
    · exact hmem n hrn
    · exact absurd ((heq m (hrn.trans hnm)).trans (heq n hrn).symm) hmn

/-- The forest joins a ground node to all nodes that hang together with it, when no other ground
node does. -/
theorem reachable_forest (hclosed : g.IsClosed) (hr : g.isGround r = true)
    (honly : ∀ m, g.isGround m = true → g.Hang r m → m = r) (hrn : g.Hang r n) :
    (g.joining g.forest.edges).Reachable r n := by
  by_cases hne : r = n
  · rw [hne]
  · have hn : n ∈ g.forest.nodes :=
      (mem_forest_iff hclosed).2 ⟨⟨r, hr, hrn⟩, r, hne, hrn.symm⟩
    obtain ⟨m, hm, hmn⟩ := Forest.isRooted_forest g n hn
    have hmr : m = r := honly m hm (hrn.trans (hang_of_reachable_forest hmn).symm)
    rwa [hmr] at hmn

end Graph

namespace Topology

variable {t : Topology} {i m n : ℕ}

/-! ### The forest of a topology -/

theorem lt_of_mem_forest (hi : i ∈ t.graph.forest.edges) : i < t.edges.length :=
  edgeCount_graph ▸ (Forest.isGrown_forest t.graph).lt_edgeCount i hi

theorem IsRegistered.hang_iff (ht : t.IsRegistered) (hm : m < t.nodes.length)
    (hn : n < t.nodes.length) :
    t.graph.Hang m n ↔ Edge.Join t.edges (t.node m) (t.node n) := by
  rw [Graph.Hang, edgeCount_graph, ht.reachable_iff_join (fun i => List.mem_range.1) hm hn,
    map_edge_range]

theorem IsRegistered.lt_of_hang (ht : t.IsRegistered) (hm : m < t.nodes.length)
    (h : t.graph.Hang m n) : n < t.nodes.length := by
  refine Graph.joined_induction (motive := (· < t.nodes.length)) h (fun e he => ?_) hm
  obtain ⟨hfirst, hsecond⟩ := ht.isClosed e (List.mem_range.1 he)
  rw [nodeCount_graph] at hfirst hsecond
  exact iff_of_true hfirst hsecond

theorem IsRegistered.node_inj (ht : t.IsRegistered) (hm : m < t.nodes.length)
    (hn : n < t.nodes.length) : (t.node m).name = (t.node n).name ↔ m = n := by
  rw [← position_eq_iff (hasNode_of_mem (node_mem hm)) (hasNode_of_mem (node_mem hn)),
    ht.position_node hm, ht.position_node hn]

/-- Edges of the tree end at a node exactly when the forest reaches it. -/
theorem IsRegistered.touches_iff (ht : t.IsRegistered) (hn : n < t.nodes.length) :
    (∃ e ∈ t.treeEdges, e.touches (t.node n) = true) ↔ n ∈ t.graph.forest.nodes := by
  have htouches (i : ℕ) (hi : i ∈ t.graph.forest.edges) :
      (t.edge i).touches (t.node n) = true ↔ t.graph.first i = n ∨ t.graph.second i = n := by
    rw [ht.touches_graph (lt_of_mem_forest hi) hn, Graph.touches, Bool.or_eq_true, beq_iff_eq,
      beq_iff_eq]
  rw [Forest.mem_forest_iff_touched]
  constructor
  · rintro ⟨e, he, hends⟩
    obtain ⟨i, hi, rfl⟩ := List.mem_map.1 he
    exact ⟨i, hi, (htouches i hi).1 hends⟩
  · rintro ⟨i, hi, hends⟩
    exact ⟨t.edge i, List.mem_map_of_mem hi, (htouches i hi).2 hends⟩

/-- The forest touches the nodes that are joined to a ground node and to another node. -/
theorem IsRegistered.touches_iff_join (ht : t.IsRegistered) {n : Node} (hn : n ∈ t.nodes) :
    (∃ e ∈ t.treeEdges, e.touches n = true) ↔
      (∃ m ∈ t.nodes, m.isGround = true ∧ Edge.Join t.edges m n) ∧
        ∃ m ∈ t.nodes, m.name ≠ n.name ∧ Edge.Join t.edges n m := by
  obtain ⟨j, hj, rfl⟩ := exists_node hn
  rw [ht.touches_iff hj, Graph.mem_forest_iff ht.isClosed]
  refine and_congr ⟨?_, ?_⟩ ⟨?_, ?_⟩
  · rintro ⟨i, hground, hij⟩
    have hi := lt_of_isGround hground
    exact ⟨t.node i, node_mem hi, isGround_graph ▸ hground, (ht.hang_iff hi hj).1 hij⟩
  · rintro ⟨m, hm, hground, hmn⟩
    obtain ⟨i, hi, rfl⟩ := exists_node hm
    exact ⟨i, isGround_graph ▸ hground, (ht.hang_iff hi hj).2 hmn⟩
  · rintro ⟨i, hij, hji⟩
    have hi := ht.lt_of_hang hj hji
    exact ⟨t.node i, node_mem hi, fun hname => hij ((ht.node_inj hi hj).1 hname),
      (ht.hang_iff hj hi).1 hji⟩
  · rintro ⟨m, hm, hname, hnm⟩
    obtain ⟨i, hi, rfl⟩ := exists_node hm
    exact ⟨i, fun heq => hname ((ht.node_inj hi hj).2 heq), (ht.hang_iff hj hi).2 hnm⟩

/-- Every node at an edge of the tree is joined to a ground node by edges of the tree. -/
theorem IsRegistered.exists_ground_of_touches (ht : t.IsRegistered) {n : Node} (hn : n ∈ t.nodes)
    (h : ∃ e ∈ t.treeEdges, e.touches n = true) :
    ∃ m ∈ t.nodes, m.isGround = true ∧ Edge.Join t.treeEdges m n := by
  obtain ⟨j, hj, rfl⟩ := exists_node hn
  obtain ⟨i, hground, hij⟩ := Forest.isRooted_forest t.graph j ((ht.touches_iff hj).1 h)
  have hi := lt_of_isGround hground
  exact ⟨t.node i, node_mem hi, isGround_graph ▸ hground,
    (ht.reachable_iff_join_treeEdges hi hj).1 hij⟩

/-- The tree joins a ground node to all nodes of its part of the circuit, when it has no other
ground node. -/
theorem IsRegistered.join_treeEdges (ht : t.IsRegistered) {r n : Node} (hr : r ∈ t.nodes)
    (hground : r.isGround = true)
    (honly : ∀ m ∈ t.nodes, m.isGround = true → Edge.Join t.edges r m → m = r)
    (hn : n ∈ t.nodes) (hrn : Edge.Join t.edges r n) : Edge.Join t.treeEdges r n := by
  obtain ⟨i, hi, rfl⟩ := exists_node hr
  obtain ⟨j, hj, rfl⟩ := exists_node hn
  refine (ht.reachable_iff_join_treeEdges hi hj).1 ?_
  refine Graph.reachable_forest ht.isClosed (isGround_graph ▸ hground) (fun k hk hik => ?_)
    ((ht.hang_iff hi hj).2 hrn)
  have hlt := lt_of_isGround hk
  refine (ht.node_inj hlt hi).1 (congrArg Node.name ?_)
  exact honly _ (node_mem hlt) (isGround_graph ▸ hk) ((ht.hang_iff hi hlt).1 hik)

theorem IsRegistered.name_ne_of_mem_treeEdges (ht : t.IsRegistered) {e : Edge}
    (he : e ∈ t.treeEdges) : e.first.name ≠ e.second.name := by
  obtain ⟨i, hi, rfl⟩ := List.mem_map.1 he
  obtain ⟨hfirst, hsecond⟩ := ht.hasNode _ (edge_mem (lt_of_mem_forest hi))
  have hproper := (Graph.acyclic_forest t.graph).proper hi
  rw [first_graph (lt_of_mem_forest hi), second_graph (lt_of_mem_forest hi)] at hproper
  exact fun hname => hproper ((position_eq_iff hfirst hsecond).2 hname)

theorem IsRegistered.nodup_treeEdges (ht : t.IsRegistered) : t.treeEdges.Nodup := by
  refine (Forest.isGrown_forest t.graph).nodup.map_on fun i hi j hj heq => ?_
  have hi := lt_of_mem_forest hi
  have hj := lt_of_mem_forest hj
  refine (List.getElem?_inj (by simpa using hi) ht.nodup_names).1 ?_
  simpa [edge, hi, hj] using congrArg Edge.name heq

/-- **The edges selected for the tree are a forest that hangs on the ground nodes.** They are
edges of the topology, each selected once, none of them a self-loop, and form no cycle. They touch
the nodes whose part of the circuit has a ground node and at least two nodes, and no others. Every
tree of the forest has a ground node, and where there is exactly one, a single tree joins its part
of the circuit. -/
theorem treeEdges_isAnchored (ht : t.IsRegistered) :
    t.graph.Acyclic t.graph.forest.edges ∧
    (t.treeEdges ⊆ t.edges ∧ t.treeEdges.Nodup ∧
      ∀ e ∈ t.treeEdges, e.first.name ≠ e.second.name) ∧
    (∀ n ∈ t.nodes, (∃ e ∈ t.treeEdges, e.touches n = true) ↔
      (∃ m ∈ t.nodes, m.isGround = true ∧ Edge.Join t.edges m n) ∧
        ∃ m ∈ t.nodes, m.name ≠ n.name ∧ Edge.Join t.edges n m) ∧
    (∀ n ∈ t.nodes, (∃ e ∈ t.treeEdges, e.touches n = true) →
      ∃ m ∈ t.nodes, m.isGround = true ∧ Edge.Join t.treeEdges m n) ∧
    (∀ r ∈ t.nodes, r.isGround = true →
      (∀ m ∈ t.nodes, m.isGround = true → Edge.Join t.edges r m → m = r) →
      ∀ n ∈ t.nodes, Edge.Join t.edges r n → Edge.Join t.treeEdges r n) := by
  have hsubset : t.treeEdges ⊆ t.edges := by
    intro e he
    obtain ⟨i, hi, rfl⟩ := List.mem_map.1 he
    exact edge_mem (lt_of_mem_forest hi)
  exact ⟨Graph.acyclic_forest t.graph,
    ⟨hsubset, ht.nodup_treeEdges, fun _ he => ht.name_ne_of_mem_treeEdges he⟩,
    fun _ hn => ht.touches_iff_join hn, fun _ hn => ht.exists_ground_of_touches hn,
    fun _ hr hground honly _ hn => ht.join_treeEdges hr hground honly hn⟩

/-- A circuit with a loop, a self-loop and parallel edges at its only ground node, and a part
without ground: the tree joins the first part, and touches no node of the other. -/
theorem treeEdges_isAnchored_parts :
    let a : Node := ⟨"a", false⟩
    let b : Node := ⟨"b", false⟩
    let c : Node := ⟨"c", false⟩
    let gnd := Node.ground "gnd"
    let t := (((((empty.addEdge ⟨gnd, gnd, "X0"⟩).addEdge ⟨a, b, "R0"⟩).addEdge
      ⟨gnd, a, "V0"⟩).addEdge ⟨gnd, b, "R1"⟩).addEdge ⟨a, gnd, "C0"⟩).addEdge ⟨c, ⟨"d", false⟩, "R2"⟩
    t.IsRegistered ∧ t.treeEdges = [⟨gnd, a, "V0"⟩, ⟨gnd, b, "R1"⟩] ∧
      t.graph.Acyclic t.graph.forest.edges ∧ Edge.Join t.treeEdges gnd b ∧
      ¬ ∃ m ∈ t.nodes, m.isGround = true ∧ Edge.Join t.edges m c := by
  intro a b c gnd t
  have ht : t.IsRegistered :=
    .addEdge _ (.addEdge _ (.addEdge _ (.addEdge _ (.addEdge _ (.addEdge _ .empty)))))
  have hnodes : t.nodes = [gnd, a, b, c, ⟨"d", false⟩] := by decide +kernel
  have hedges : t.edges = [⟨gnd, gnd, "X0"⟩, ⟨a, b, "R0"⟩, ⟨gnd, a, "V0"⟩, ⟨gnd, b, "R1"⟩,
    ⟨a, gnd, "C0"⟩, ⟨c, ⟨"d", false⟩, "R2"⟩] := by decide +kernel
  have htree : t.treeEdges = [⟨gnd, a, "V0"⟩, ⟨gnd, b, "R1"⟩] := by decide +kernel
  clear_value t
  obtain ⟨hacyclic, -, htouches, -, hsingle⟩ := treeEdges_isAnchored ht
  have hb : Edge.Join t.edges gnd b :=
    Edge.join_of_mem (e := ⟨gnd, b, "R1"⟩) (by simp [hedges])
  have hc : Edge.Join t.edges c ⟨"d", false⟩ :=
    Edge.join_of_mem (e := ⟨c, ⟨"d", false⟩, "R2"⟩) (by simp [hedges])
  have honly : ∀ m ∈ t.nodes, m.isGround = true → Edge.Join t.edges gnd m → m = gnd := by
    rw [hnodes]
    intro m hm hground _
    fin_cases hm <;> first | rfl | cases hground
  refine ⟨ht, htree, hacyclic, ?_, fun hground => ?_⟩
  · exact hsingle gnd (by simp [hnodes]) rfl honly b (by simp [hnodes]) hb
  · obtain ⟨e, he, hends⟩ := (htouches c (by simp [hnodes])).2
      ⟨hground, ⟨"d", false⟩, by simp [hnodes], by decide, hc⟩
    rw [htree] at he
    fin_cases he <;> exact absurd hends (by decide)

end Topology

end Kirchhoff
