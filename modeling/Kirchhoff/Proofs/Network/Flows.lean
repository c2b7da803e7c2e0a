import Mathlib.Algebra.BigOperators.Group.Finset.Piecewise
import Kirchhoff.Proofs.Network.Laws

/-!
# Conservation of flow

The law of a node takes the flow of an edge away when the edge leaves the node, and else adds it
when the edge enters the node (`Edge.contribution`). An edge that begins and ends at the node does
both, but is only taken away. The law of a node therefore says that the flows in are the flows out
and, once more, the flows of the self-loops at the node (`flowLaws_hold_iff`): flow is conserved at
the nodes without self-loops, and it need not be at the others (`exists_flowLaw_of_selfLoop`).

Over all nodes, the signs of the flow of an edge cancel in the same cases.
-/

namespace Kirchhoff

/-! ### The signs of a flow at all nodes -/

namespace Graph

variable {g : Graph} {e n : ℕ}

/-- The signs of the flow of an edge in the balances of all nodes, with ground like any other. -/
def signsOf (g : Graph) (e : ℕ) : List Int :=
  (((List.range g.nodeCount).flatMap g.balance).filter (·.1 == e)).map (·.2)

theorem mem_balance {p : ℕ × Int} :
    p ∈ g.balance n ↔ p.1 < g.edgeCount ∧ g.flowSign? n p.1 = some p.2 := by
  obtain ⟨d, s⟩ := p
  simp only [balance, List.mem_filterMap, List.mem_range, Option.map_eq_some_iff, Prod.mk.injEq]
  constructor
  · rintro ⟨e, he, r, hr, rfl, rfl⟩
    exact ⟨he, hr⟩
  · rintro ⟨hd, hs⟩
    exact ⟨d, hd, s, hs, rfl, rfl⟩

theorem balance_isEmpty_iff :
    (g.balance n).isEmpty = true ↔ ∀ e < g.edgeCount, g.touches e n = false := by
  simp only [List.isEmpty_iff, List.eq_nil_iff_forall_not_mem, mem_balance, touches,
    Bool.or_eq_false_iff, beq_eq_false_iff_ne]
  constructor
  · intro h e he
    refine ⟨fun hfirst => h (e, -1) ⟨he, ?_⟩, fun hsecond => ?_⟩
    · rw [flowSign?, if_pos hfirst]
    · by_cases hfirst : g.first e = n
      · exact h (e, -1) ⟨he, by rw [flowSign?, if_pos hfirst]⟩
      · exact h (e, 1) ⟨he, by rw [flowSign?, if_neg hfirst, if_pos hsecond]⟩
  · rintro h ⟨e, s⟩ ⟨he, hs⟩
    obtain ⟨hfirst, hsecond⟩ := h e he
    rw [flowSign?, if_neg hfirst, if_neg hsecond] at hs
    cases hs

/-- An edge stands in the balance of a node at most once. -/
theorem filter_balance (he : e < g.edgeCount) :
    ((g.balance n).filter (·.1 == e)).map (·.2) = (g.flowSign? n e).toList := by
  have hrange {es : List ℕ} (hnodup : es.Nodup) :
      ((es.filterMap fun d => (g.flowSign? n d).map fun s => (d, s)).filter (·.1 == e)).map (·.2) =
        if e ∈ es then (g.flowSign? n e).toList else [] := by
    induction es with
    | nil => rfl
    | cons d es ih =>
      obtain ⟨hd, hnodup⟩ := List.nodup_cons.1 hnodup
      specialize ih hnodup
      by_cases hde : d = e
      · subst hde
        rw [if_neg hd] at ih
        cases hsign : g.flowSign? n d <;> simp [hsign, ih]
      · cases hsign : g.flowSign? n d <;> simp [hsign, ih, hde, Ne.symm hde]
  rw [balance, hrange List.nodup_range, if_pos (List.mem_range.2 he)]

/-- The signs of the flow of an edge cancel, unless it is a self-loop. -/
theorem sum_signsOf (hclosed : g.IsClosed) (he : e < g.edgeCount) :
    (g.signsOf e).sum = if g.first e = g.second e then -1 else 0 := by
  obtain ⟨hfirst, hsecond⟩ := hclosed e he
  have hlist : g.signsOf e =
      (List.range g.nodeCount).flatMap fun n => (g.flowSign? n e).toList := by
    rw [signsOf, List.filter_flatMap, List.map_flatMap]
    simp only [filter_balance he]
  -- The edge leaves one node, and enters one, which counts when it is another.
  have hsign (n : ℕ) : (g.flowSign? n e).toList.sum = (if g.first e = n then -1 else 0) +
      if g.second e = n then if g.first e = g.second e then 0 else 1 else 0 := by
    unfold flowSign?
    split_ifs <;> simp_all
  have hsum : (g.signsOf e).sum =
      ∑ n ∈ Finset.range g.nodeCount, (g.flowSign? n e).toList.sum := by
    rw [hlist, List.flatMap_def, List.sum_flatten, List.map_map]
    rfl
  simp only [hsum, hsign, Finset.sum_add_distrib, Finset.sum_ite_eq, Finset.mem_range, hfirst,
    hsecond, if_true]
  split <;> rfl

end Graph

/-! ### The flows at a node -/

/-- The edge begins and ends at the node. -/
def Edge.isLoopAt (e : Edge) (n : Node) : Bool := e.first == n && e.second == n

/-- What the law of a node makes of the flow through an edge. -/
def Edge.contribution (F : Edge → Rat) (n : Node) (e : Edge) : Rat :=
  if e.first == n then -F e else if e.second == n then F e else 0

namespace Topology

/-- The sum of the flows that enter a node. -/
def inflow (t : Topology) (F : Edge → Rat) (n : Node) : Rat :=
  ((t.edges.filter (·.second == n)).map F).sum

/-- The sum of the flows that leave a node. -/
def outflow (t : Topology) (F : Edge → Rat) (n : Node) : Rat :=
  ((t.edges.filter (·.first == n)).map F).sum

/-- The sum of the flows through the self-loops at a node. -/
def loopFlow (t : Topology) (F : Edge → Rat) (n : Node) : Rat :=
  ((t.edges.filter (·.isLoopAt n)).map F).sum

/-- The nodes that have a law: those that are not ground and have an edge. -/
def lawNodes (t : Topology) : List Node :=
  t.nodes.filter fun n => !n.isGround && !(t.edgesAt n).isEmpty

/-- The valuation reads the symbols of the flows as the given numbers. -/
def AssignsFlows (t : Topology) (k : Context Rat) (ρ : Valuation Rat) (F : Edge → Rat) : Prop :=
  ∀ e ∈ t.edges, ∀ s ∈ k.lookup (e.name ++ ".flw"), ρ.symbol s = some (F e)

instance (t : Topology) (k : Context Rat) (ρ : Valuation Rat) (F : Edge → Rat) :
    Decidable (t.AssignsFlows k ρ F) :=
  inferInstanceAs (Decidable (∀ e ∈ t.edges, ∀ s ∈ k.lookup _, _ = _))

variable {t : Topology} {k : Context Rat} {ρ : Environment Rat} {F : Edge → Rat} {i j : ℕ}
  {n : Node} {q : Equation Rat}

/-- The contributions add up to the flow in, less the flow out, less the flow of the self-loops once
more. -/
theorem sum_contribution (F : Edge → Rat) (n : Node) :
    (t.edges.map (Edge.contribution F n)).sum = t.inflow F n - t.outflow F n - t.loopFlow F n := by
  unfold inflow outflow loopFlow
  induction t.edges with
  | nil => simp
  | cons e es ih =>
    rw [List.map_cons, List.sum_cons, ih, Edge.contribution]
    cases hfirst : e.first == n <;> cases hsecond : e.second == n <;>
      simp [Edge.isLoopAt, hfirst, hsecond] <;> ring

theorem loopFlow_eq_zero (h : ∀ e ∈ t.edges, e.isLoopAt n = false) : t.loopFlow F n = 0 := by
  rw [loopFlow, List.filter_eq_nil_iff.2 fun e he => by simp [h e he]]
  rfl

/-! ### Reading the law of a node -/

/-- The flow of an edge with its sign. -/
def signed (t : Topology) (F : Edge → Rat) (term : ℕ × Int) : Rat :=
  if term.2 < 0 then -F (t.edge term.1) else F (t.edge term.1)

theorem AssignsFlows.eval_signedFlow (h : t.AssignsFlows k ρ F) {term : ℕ × Int}
    (hterm : term.1 < t.edges.length) {x : Expr Rat} (hx : t.IsSignedFlow k term x) :
    x.eval ρ = some (t.signed F term) := by
  obtain ⟨f, ⟨s, hs, rfl⟩, rfl⟩ := hx
  have hf : (Expr.symbol s : Expr Rat).eval ρ = some (F (t.edge term.1)) :=
    h _ (edge_mem hterm) s hs
  unfold signed
  split
  · exact Expr.eval_negate hf
  · exact hf

/-- The terms of a node are the contributions of the edges that have one. -/
theorem IsRegistered.sum_balance (ht : t.IsRegistered) (hj : j < t.nodes.length) :
    ((t.graph.balance j).map (t.signed F)).sum =
      (t.edges.map (Edge.contribution F (t.node j))).sum := by
  have hrange {is : List ℕ} (his : ∀ i ∈ is, i < t.edges.length) :
      ((is.filterMap fun i => (t.graph.flowSign? j i).map fun s => (i, s)).map (t.signed F)).sum =
        ((is.map t.edge).map (Edge.contribution F (t.node j))).sum := by
    induction is with
    | nil => rfl
    | cons i is ih =>
      obtain ⟨hi, his⟩ := List.forall_mem_cons.1 his
      rw [List.map_cons, List.map_cons, List.sum_cons, ← ih his, Edge.contribution,
        ht.first_beq_node hi hj, ht.second_beq_node hi hj, List.filterMap_cons, Graph.flowSign?]
      by_cases hfirst : t.graph.first i = j <;> by_cases hsecond : t.graph.second i = j <;>
        simp [hfirst, hsecond, signed]
  rw [Graph.balance, edgeCount_graph, hrange fun i => List.mem_range.1, map_edge_range]

theorem AssignsFlows.nodeLaw_holds_iff (h : t.AssignsFlows k ρ F) (ht : t.IsRegistered)
    (hj : j < t.nodes.length) (hq : t.IsNodeLaw k (t.graph.balance j) q) :
    q.Holds ρ ↔ t.inflow F (t.node j) = t.outflow F (t.node j) + t.loopFlow F (t.node j) := by
  obtain ⟨xs, hxs, rfl⟩ := hq
  have hvalues : Expr.evalAll ρ xs = some ((t.graph.balance j).map (t.signed F)) :=
    Expr.evalAll_of_forall₂ hxs fun term hterm x hx =>
      h.eval_signedFlow (edgeCount_graph ▸ (Graph.mem_balance.1 hterm).1) hx
  rw [sum_eq_zero_holds_iff hvalues, ht.sum_balance hj, sum_contribution]
  constructor <;> intro hsum <;> linarith

/-! ### Which nodes have a law -/

/-- The positions of the nodes that have a law. -/
def lawPositions (t : Topology) : List ℕ :=
  t.graph.floating.filter fun j => !(t.graph.balance j).isEmpty

theorem lt_of_mem_lawPositions (h : j ∈ t.lawPositions) : j < t.nodes.length := by
  have hj := List.mem_range.1 (List.mem_filter.1 (List.mem_filter.1 h).1).1
  rwa [nodeCount_graph] at hj

theorem IsRegistered.isEmpty_balance (ht : t.IsRegistered) (hj : j < t.nodes.length) :
    (t.graph.balance j).isEmpty = (t.edgesAt (t.node j)).isEmpty := by
  rw [Bool.eq_iff_iff, Graph.balance_isEmpty_iff, edgeCount_graph, List.isEmpty_iff, edgesAt,
    List.filter_eq_nil_iff]
  constructor
  · intro h e he
    obtain ⟨i, hi, rfl⟩ := exists_edge he
    rw [ht.touches_graph hi hj, h i hi]
    exact Bool.false_ne_true
  · intro h i hi
    rw [← ht.touches_graph hi hj]
    exact Bool.eq_false_of_not_eq_true (h _ (edge_mem hi))

theorem IsRegistered.map_node_lawPositions (ht : t.IsRegistered) :
    t.lawPositions.map t.node = t.lawNodes := by
  rw [lawNodes, ← map_node_range, List.filter_map, lawPositions, Graph.floating,
    List.filter_filter, nodeCount_graph]
  congr 1
  refine List.filter_congr fun j hj => ?_
  rw [Function.comp_apply, isGround_graph, ht.isEmpty_balance (List.mem_range.1 hj), Bool.and_comm]

/-- The laws of an analysis are those of the nodes that are not ground and have an edge. -/
theorem IsAnalysis.forall₂_flowLaws {a : Analysis Rat} (h : t.IsAnalysis k a) :
    List.Forall₂ (fun j => t.IsNodeLaw k (t.graph.balance j)) t.lawPositions a.flowLaws := by
  have hlaws := h.flowLaws
  rwa [List.filter_map, List.forall₂_map_left_iff] at hlaws

/-! ### Conservation -/

/-- **The laws of the nodes say that flow is conserved**, up to the self-loops: the law of a node
holds when the flows in are the flows out and, once more, the flows of the self-loops at the node.
Where a node has no self-loop, its law is conservation. Over all nodes the signs of the flow of an
edge cancel, unless the edge is a self-loop. -/
theorem flowLaws_hold_iff (ht : t.IsRegistered) (k : Context Rat)
    (hρ : t.AssignsFlows (t.analyze k).2 ρ F) :
    List.Forall₂ (fun n q =>
        (q.Holds ρ ↔ t.inflow F n = t.outflow F n + t.loopFlow F n) ∧
        ((∀ e ∈ t.edges, e.isLoopAt n = false) → (q.Holds ρ ↔ t.inflow F n = t.outflow F n)))
      t.lawNodes (t.analyze k).1.flowLaws ∧
    ∀ i < t.edges.length, (t.graph.signsOf i).sum =
      if (t.edge i).first == (t.edge i).second then -1 else 0 := by
  constructor
  · rw [← ht.map_node_lawPositions, List.forall₂_map_left_iff]
    refine ((List.forall₂_and_left _ _).2 ⟨fun j => lt_of_mem_lawPositions,
      (isAnalysis t k).forall₂_flowLaws⟩).imp fun j q hq => ?_
    have hiff := hρ.nodeLaw_holds_iff ht hq.1 hq.2
    refine ⟨hiff, fun hnone => ?_⟩
    rw [hiff, loopFlow_eq_zero hnone, add_zero]
  · intro i hi
    obtain ⟨hfirst, hsecond⟩ := ht.hasNode _ (edge_mem hi)
    rw [Graph.sum_signsOf ht.isClosed (edgeCount_graph ▸ hi), first_graph hi, second_graph hi]
    exact if_congr ((position_eq_iff hfirst hsecond).trans Node.beq_iff.symm) rfl rfl

/-- A self-loop at a node: its flow enters the node and leaves it, but breaks the law. -/
theorem exists_flowLaw_of_selfLoop :
    let a : Node := ⟨"a", false⟩
    let gnd := Node.ground "gnd"
    let t := (empty.addEdge ⟨gnd, a, "V0"⟩).addEdge ⟨a, a, "X0"⟩
    let F : Edge → Rat := fun e => if e.name = "X0" then 1 else 0
    let k : Context Rat := .new
    let ρ : Environment Rat := .ofIds fun i => some (if i = 3 then 1 else 0)
    t.IsRegistered ∧ t.AssignsFlows (t.analyze k).2 ρ F ∧ t.lawNodes = [a] ∧
      t.inflow F a = t.outflow F a ∧ (t.analyze k).1.flowLaws.length = 1 ∧
      (∀ q ∈ (t.analyze k).1.flowLaws, ¬ q.Holds ρ) ∧ (t.graph.signsOf 1).sum ≠ 0 := by
  intro a gnd t F k ρ
  have ht : t.IsRegistered := .addEdge _ (.addEdge _ .empty)
  exact ⟨ht, by decide +kernel⟩

/-- A circuit with two opposite parallel edges and a self-loop. The flows in and out are equal at
both nodes, but the law of the node with the self-loop does not hold. -/
theorem flowLaws_hold_iff_parallel :
    let a : Node := ⟨"a", false⟩
    let b : Node := ⟨"b", false⟩
    let gnd := Node.ground "gnd"
    let t := ((((empty.addEdge ⟨gnd, a, "V0"⟩).addEdge ⟨a, b, "R0"⟩).addEdge
      ⟨b, a, "R1"⟩).addEdge ⟨b, gnd, "R2"⟩).addEdge ⟨b, b, "X0"⟩
    let F : Edge → Rat := fun e => if e.name = "R0" then 3 else if e.name = "R1" then 1 else
      if e.name = "X0" then 5 else 2
    let k : Context Rat := .new
    let ρ : Environment Rat := .ofIds fun i =>
      some (if i = 7 then 3 else if i = 8 then 1 else if i = 10 then 5 else 2)
    (t.lawNodes = [a, b] ∧ t.lawNodes.map (t.inflow F) = [3, 8] ∧
      t.lawNodes.map (t.outflow F) = [3, 8] ∧ t.lawNodes.map (t.loopFlow F) = [0, 5] ∧
      (t.analyze k).1.flowLaws.map (fun q => decide (q.Holds ρ)) = [true, false]) ∧
    List.Forall₂ (fun n q =>
        (q.Holds ρ ↔ t.inflow F n = t.outflow F n + t.loopFlow F n) ∧
        ((∀ e ∈ t.edges, e.isLoopAt n = false) → (q.Holds ρ ↔ t.inflow F n = t.outflow F n)))
      t.lawNodes (t.analyze k).1.flowLaws ∧
    ∀ i < t.edges.length, (t.graph.signsOf i).sum =
      if (t.edge i).first == (t.edge i).second then -1 else 0 := by
  intro a b gnd t F k ρ
  have ht : t.IsRegistered := .addEdge _ (.addEdge _ (.addEdge _ (.addEdge _ (.addEdge _ .empty))))
  exact ⟨by decide +kernel, flowLaws_hold_iff ht k (by decide +kernel)⟩

end Topology

end Kirchhoff
