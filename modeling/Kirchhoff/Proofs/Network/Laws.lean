import Kirchhoff.Proofs.Network.Topology
import Kirchhoff.Proofs.Expr.Canonical
import Kirchhoff.Proofs.Network.Consistency
import Kirchhoff.Proofs.Context
import Kirchhoff.Proofs.Traversal

/-!
# What the laws of a network say

An analysis interns symbols as it goes, so its laws are described relative to the context that it
leaves (`IsAnalysis`). Read at an environment that assigns potentials to the edges, they say that
the potentials are consistent (`potentialLaws_hold_iff`).

Potentials that come from nodes satisfy every law, whichever way the edges are declared, except
the equality of two parallel edges that are declared in opposite directions
(`potentialLaw_of_difference_iff`). When there are no such edges and the spanning tree is complete,
the laws leave only potentials that come from nodes (`potentialLaws_complete`).
-/

namespace Kirchhoff

open Context

/-! ### The laws by their symbols -/

section

variable {α : Type}

/-- The expression is the symbol of the potential across the edge. -/
def Context.IsPotential (k : Context α) (e : Edge) (x : Expr α) : Prop :=
  ∃ s, k.lookup (e.name ++ ".pot") = some s ∧ x = .symbol s

/-- The expression is the symbol of the flow through the edge. -/
def Context.IsFlow (k : Context α) (e : Edge) (x : Expr α) : Prop :=
  ∃ s, k.lookup (e.name ++ ".flw") = some s ∧ x = .symbol s

/-- The equation sets the potentials across two edges equal. -/
def Context.Equates (k : Context α) (d e : Edge) (q : Equation α) : Prop :=
  k.IsPotential d q.lhs ∧ k.IsPotential e q.rhs

/-- No diagnostic reports that the spanning tree falls short. -/
def Analysis.HasFullTree (a : Analysis α) : Prop :=
  ∀ m n, .spanningTreeShortfall m n ∉ a.diagnostics

namespace Topology

variable (t : Topology)

theorem interns_potential (i : ℕ) :
    Interns (t.potential (α := α) i) fun k x => k.IsPotential (t.edge i) x :=
  (interns_symbol _).bind fun s => Interns.pure fun _ hs => ⟨s, hs, rfl⟩

theorem interns_flow (i : ℕ) : Interns (t.flow (α := α) i) fun k x => k.IsFlow (t.edge i) x :=
  (interns_symbol _).bind fun s => Interns.pure fun _ hs => ⟨s, hs, rfl⟩

theorem interns_parallelLaws (p : ParallelGroup) :
    Interns (α := α) (t.parallelLaws p) fun k qs => List.Forall₂
      (fun i => k.Equates (t.edge p.representative) (t.edge i)) p.others qs := by
  refine (interns_potential t p.representative).bind fun r => ?_
  have hothers := Interns.mapM (R := fun k i q => q.lhs = r ∧ k.IsPotential (t.edge i) q.rhs)
    (fun i => (interns_potential t i).bind fun s =>
      Interns.pure (b := (⟨r, s⟩ : Equation α)) fun _ hs => ⟨rfl, hs⟩) p.others
  refine hothers.imp fun k qs hqs hr => hqs.imp fun i q hq => ?_
  obtain ⟨rfl, hs⟩ := hq
  exact ⟨hr, hs⟩

variable [Scalar α]

/-- The equation is the law of the loop. -/
def IsLoopLaw (k : Context α) (l : Loop) (q : Equation α) : Prop :=
  ∃ ps ns, List.Forall₂ (fun i => k.IsPotential (t.edge i)) l.positive ps ∧
    List.Forall₂ (fun i => k.IsPotential (t.edge i)) l.negative ns ∧
    q = ⟨.sum (ps ++ ns.map (- ·)), .number 0⟩

/-- The expression is the flow of an edge with its sign. -/
def IsSignedFlow (k : Context α) (term : ℕ × Int) (x : Expr α) : Prop :=
  ∃ f, k.IsFlow (t.edge term.1) f ∧ x = if term.2 < 0 then -f else f

/-- The equation is the law of the node with these flows. -/
def IsNodeLaw (k : Context α) (terms : List (ℕ × Int)) (q : Equation α) : Prop :=
  ∃ xs, List.Forall₂ (t.IsSignedFlow k) terms xs ∧ q = ⟨.sum xs, .number 0⟩

/-- The analysis has the laws of the loops found, of the groups of parallel edges and of the nodes
with edges. -/
structure IsAnalysis (k : Context α) (a : Analysis α) : Prop where
  potentialLaws : ∃ loopLaws equalities,
    List.Forall₂ (t.IsLoopLaw k) (t.graph.foundLoops t.graph.forest.edges) loopLaws ∧
    List.Forall₂ (fun p qs => List.Forall₂
      (fun i => k.Equates (t.edge p.representative) (t.edge i)) p.others qs)
      t.graph.parallelGroups equalities ∧
    a.potentialLaws = loopLaws ++ equalities.flatten
  flowLaws : List.Forall₂ (t.IsNodeLaw k)
    ((t.graph.floating.map t.graph.balance).filter (!·.isEmpty)) a.flowLaws
  diagnostics : a.diagnostics = t.diagnose t.graph.forest.edges (t.graph.loops t.graph.forest.edges)

variable {t}

theorem interns_loopLaw (l : Loop) : Interns (α := α) (t.loopLaw l) fun k => t.IsLoopLaw k l :=
  (Interns.mapM (interns_potential t) l.positive).bind fun ps =>
    (Interns.mapM (interns_potential t) l.negative).bind fun ns =>
      Interns.pure fun _ hns hps => ⟨ps, ns, hps, hns, rfl⟩

theorem interns_signedFlow (term : ℕ × Int) :
    Interns (α := α) (t.signedFlow term) fun k => t.IsSignedFlow k term :=
  (interns_flow t term.1).bind fun f => Interns.pure fun _ hf => ⟨f, hf, rfl⟩

theorem interns_nodeLaw (terms : List (ℕ × Int)) :
    Interns (α := α) (t.nodeLaw terms) fun k => t.IsNodeLaw k terms :=
  (Interns.mapM interns_signedFlow terms).bind fun xs => Interns.pure fun _ hxs => ⟨xs, hxs, rfl⟩

/-- An analysis interns symbols and writes its laws with them. -/
theorem interns_analyze (t : Topology) : Interns (α := α) t.analyze t.IsAnalysis :=
  (Interns.mapM interns_loopLaw _).bind fun loopLaws =>
    (Interns.mapM (interns_parallelLaws t) _).bind fun equalities =>
      (Interns.mapM interns_nodeLaw _).bind fun _ =>
        Interns.pure fun _ hflow hequalities hloops =>
          ⟨⟨loopLaws, equalities, hloops, hequalities, rfl⟩, hflow, rfl⟩

theorem isAnalysis (t : Topology) (k : Context α) : t.IsAnalysis (t.analyze k).2 (t.analyze k).1 :=
  (interns_analyze t k).2 _ (Extends.refl _)

theorem hasFullTree_iff {k : Context α} :
    (t.analyze k).1.HasFullTree ↔ t.graph.forest.edges.length = t.graph.treeSize := by
  unfold Analysis.HasFullTree
  rw [(isAnalysis t k).diagnostics, diagnose]
  constructor
  · intro h
    by_contra hne
    exact h t.graph.forest.edges.length t.graph.treeSize (by simp [hne])
  · intro h m n
    simp [h]

end Topology

end

/-! ### Reading the laws -/

namespace Topology

variable {t : Topology} {k : Context Rat} {ρ : Environment Rat} {P : Edge → Rat} {i j : ℕ}
  {q : Equation Rat} {l : Loop}

/-- The valuation reads the symbols of the potentials as the given numbers. -/
def Assigns (t : Topology) (k : Context Rat) (ρ : Valuation Rat) (P : Edge → Rat) : Prop :=
  ∀ e ∈ t.edges, ∀ s ∈ k.lookup (e.name ++ ".pot"), ρ.symbol s = some (P e)

/-- The symbol of the potential across the edge has the number. -/
def hasPotentialId (k : Context Rat) (i : ℕ) (e : Edge) : Bool :=
  (k.lookup (e.name ++ ".pot")).any fun s => s.id == i

/-- The environment that assigns potentials to the edges. -/
def reading (t : Topology) (k : Context Rat) (P : Edge → Rat) : Environment Rat :=
  .ofIds fun i => (t.edges.find? (hasPotentialId k i)).map P

theorem hasPotentialId_iff {e : Edge} :
    hasPotentialId k i e = true ↔ ∃ s, k.lookup (e.name ++ ".pot") = some s ∧ s.id = i := by
  simp only [hasPotentialId, Option.any_eq_true, beq_iff_eq]

/-- Any potentials can be assigned. -/
theorem assigns_reading (ht : t.IsRegistered) (hk : k.symbols.IsNumbered) :
    t.Assigns k (t.reading k P) P := by
  intro e he s hs
  obtain ⟨d, hd⟩ := Option.isSome_iff_exists.1 (List.find?_isSome.2
    ⟨e, he, hasPotentialId_iff.2 ⟨s, hs, rfl⟩⟩)
  obtain ⟨r, hr, hid⟩ := hasPotentialId_iff.1 (List.find?_some hd)
  obtain ⟨hrmem, hrname⟩ := SymbolTable.get?_spec hr
  obtain ⟨hsmem, hsname⟩ := SymbolTable.get?_spec hs
  have hname : d.name ++ ".pot" = e.name ++ ".pot" := by
    rw [← hrname, ← hsname, hk.eq_of_id_eq hrmem hsmem hid]
  have hde := ht.eq_of_name_eq (List.mem_of_find?_eq_some hd) he
    ((String.append_left_inj _).1 hname)
  change (t.edges.find? (hasPotentialId k s.id)).map P = some (P e)
  rw [hd, hde]
  rfl

theorem assigns_reading_analyze (ht : t.IsRegistered) (hk : k.symbols.IsNumbered) :
    t.Assigns (t.analyze k).2 (t.reading (t.analyze k).2 P) P :=
  assigns_reading ht ((interns_analyze t k).1.isNumbered hk)

theorem Assigns.eval (h : t.Assigns k ρ P) {e : Edge} (he : e ∈ t.edges) {x : Expr Rat}
    (hx : k.IsPotential e x) : x.eval ρ = some (P e) := by
  obtain ⟨s, hs, rfl⟩ := hx
  exact h e he s hs

theorem Assigns.evalAll (h : t.Assigns k ρ P) {is : List ℕ} (his : ∀ i ∈ is, i < t.edges.length)
    {xs : List (Expr Rat)} (hxs : List.Forall₂ (fun i => k.IsPotential (t.edge i)) is xs) :
    Expr.evalAll ρ xs = some (is.map fun i => P (t.edge i)) :=
  Expr.evalAll_of_forall₂ hxs fun i hi _ hx => h.eval (edge_mem (his i hi)) hx

theorem Assigns.evalAll_negate (h : t.Assigns k ρ P) {is : List ℕ}
    (his : ∀ i ∈ is, i < t.edges.length) {xs : List (Expr Rat)}
    (hxs : List.Forall₂ (fun i => k.IsPotential (t.edge i)) is xs) :
    Expr.evalAll ρ (xs.map (- ·)) = some (is.map fun i => -P (t.edge i)) := by
  have hneg : List.Forall₂ (fun i x => ∃ y, k.IsPotential (t.edge i) y ∧ x = -y) is
      (xs.map (- ·)) := List.forall₂_map_right_iff.2 (hxs.imp fun _ y hy => ⟨y, hy, rfl⟩)
  refine Expr.evalAll_of_forall₂ hneg fun i hi x ⟨y, hy, hx⟩ => ?_
  rw [hx]
  exact Expr.eval_negate (h.eval (edge_mem (his i hi)) hy)

/-- That a sum is zero says so of the values of its terms. -/
theorem sum_eq_zero_holds_iff {xs : List (Expr Rat)} {vs : List Rat}
    (h : Expr.evalAll ρ xs = some vs) :
    (⟨.sum xs, .number 0⟩ : Equation Rat).Holds ρ ↔ vs.sum = 0 := by
  have hsum : (Expr.sum xs).eval ρ = some vs.sum :=
    Expr.sum_refines _ _ (Expr.eval_add_iff.2 ⟨vs, h, rfl⟩)
  unfold Equation.Holds
  rw [hsum]
  simp [eq_comm]

/-- The law of a loop says that the potentials along it add up to zero. -/
theorem Assigns.loopLaw_holds_iff (h : t.Assigns k ρ P) (hl : ∀ i ∈ l.edges, i < t.edges.length)
    (hq : t.IsLoopLaw k l q) : q.Holds ρ ↔ l.total (fun i => P (t.edge i)) = 0 := by
  obtain ⟨ps, ns, hps, hns, rfl⟩ := hq
  have hpositive := h.evalAll (fun i hi => hl i (List.mem_append_left _ hi)) hps
  have hnegative := h.evalAll_negate (fun i hi => hl i (List.mem_append_right _ hi)) hns
  rw [sum_eq_zero_holds_iff (Expr.evalAll_append_iff.2 ⟨_, _, hpositive, hnegative, rfl⟩),
    Loop.total, sub_eq_add_neg, List.sum_append, List.sum_neg, List.map_map]
  rfl

/-- The equality of two edges says that their potentials are equal. -/
theorem Assigns.equates_holds_iff (h : t.Assigns k ρ P) {d e : Edge} (hd : d ∈ t.edges)
    (he : e ∈ t.edges) (hq : k.Equates d e q) : q.Holds ρ ↔ P d = P e := by
  unfold Equation.Holds
  rw [h.eval hd hq.1, h.eval he hq.2]
  simp [eq_comm]

theorem lt_of_mem_foundLoops (hl : l ∈ t.graph.foundLoops t.graph.forest.edges) :
    ∀ i ∈ l.edges, i < t.edges.length := by
  have hgrown := Forest.isGrown_forest t.graph
  have hlt := Graph.lt_edgeCount_of_mem_foundLoops hgrown.independent hgrown.lt_edgeCount hl
  rwa [edgeCount_graph] at hlt

theorem mem_edges_of_mem_others {p : ParallelGroup} (hp : p ∈ t.graph.parallelGroups)
    (hi : i ∈ p.others) : t.edge p.representative ∈ t.edges ∧ t.edge i ∈ t.edges := by
  obtain ⟨hr, hlt, -⟩ := Graph.isParallel_of_mem_others hp hi
  rw [edgeCount_graph] at hr hlt
  exact ⟨edge_mem hr, edge_mem hlt⟩

/-- The laws are those of the loops found and the equalities within the groups. -/
theorem IsAnalysis.mem_potentialLaws {α : Type} [Scalar α] {k : Context α} {a : Analysis α}
    {q : Equation α} (h : t.IsAnalysis k a) (hq : q ∈ a.potentialLaws) :
    (∃ l ∈ t.graph.foundLoops t.graph.forest.edges, t.IsLoopLaw k l q) ∨
      ∃ p ∈ t.graph.parallelGroups, ∃ i ∈ p.others,
        k.Equates (t.edge p.representative) (t.edge i) q := by
  obtain ⟨loopLaws, equalities, hloops, hequalities, heq⟩ := h.potentialLaws
  rw [heq, List.mem_append, List.mem_flatten] at hq
  obtain hq | ⟨qs, hqs, hq⟩ := hq
  · exact .inl (exists_left_of_forall₂ hloops hq)
  · obtain ⟨p, hp, hpqs⟩ := exists_left_of_forall₂ hequalities hqs
    exact .inr ⟨p, hp, exists_left_of_forall₂ hpqs hq⟩

theorem IsAnalysis.exists_loopLaw {a : Analysis Rat} (h : t.IsAnalysis k a)
    (hl : l ∈ t.graph.foundLoops t.graph.forest.edges) :
    ∃ q ∈ a.potentialLaws, t.IsLoopLaw k l q := by
  obtain ⟨loopLaws, equalities, hloops, -, heq⟩ := h.potentialLaws
  obtain ⟨q, hq, hlaw⟩ := exists_right_of_forall₂ hloops hl
  exact ⟨q, heq ▸ List.mem_append_left _ hq, hlaw⟩

theorem IsAnalysis.exists_equality {a : Analysis Rat} (h : t.IsAnalysis k a) {p : ParallelGroup}
    (hp : p ∈ t.graph.parallelGroups) (hi : i ∈ p.others) :
    ∃ q ∈ a.potentialLaws, k.Equates (t.edge p.representative) (t.edge i) q := by
  obtain ⟨loopLaws, equalities, -, hequalities, heq⟩ := h.potentialLaws
  obtain ⟨qs, hqs, hpqs⟩ := exists_right_of_forall₂ hequalities hp
  obtain ⟨q, hq, hlaw⟩ := exists_right_of_forall₂ hpqs hi
  exact ⟨q, heq ▸ List.mem_append_right _ (List.mem_flatten.2 ⟨qs, hqs, hq⟩), hlaw⟩

/-- The laws say that the potentials are consistent. -/
theorem IsAnalysis.potentialLaws_hold_iff {a : Analysis Rat} (h : t.IsAnalysis k a)
    (hρ : t.Assigns k ρ P) :
    (∀ q ∈ a.potentialLaws, q.Holds ρ) ↔
      t.graph.Consistent t.graph.forest.edges fun i => P (t.edge i) := by
  constructor
  · intro hlaws
    refine ⟨fun l hl => ?_, fun p hp i hi => ?_⟩
    · obtain ⟨q, hq, hlaw⟩ := h.exists_loopLaw hl
      exact (hρ.loopLaw_holds_iff (lt_of_mem_foundLoops hl) hlaw).1 (hlaws q hq)
    · obtain ⟨q, hq, hlaw⟩ := h.exists_equality hp hi
      obtain ⟨hr, hi⟩ := mem_edges_of_mem_others hp hi
      exact (hρ.equates_holds_iff hr hi hlaw).1 (hlaws q hq)
  · intro hconsistent q hq
    obtain ⟨l, hl, hlaw⟩ | ⟨p, hp, i, hi, hlaw⟩ := h.mem_potentialLaws hq
    · exact (hρ.loopLaw_holds_iff (lt_of_mem_foundLoops hl) hlaw).2 (hconsistent.loops l hl)
    · obtain ⟨hr, hi'⟩ := mem_edges_of_mem_others hp hi
      exact (hρ.equates_holds_iff hr hi' hlaw).2 (hconsistent.groups p hp i hi)

/-! ### Potentials of nodes satisfy the laws -/

/-- Potentials that come from nodes add up to zero along every loop found. -/
theorem IsRegistered.total_foundLoop (ht : t.IsRegistered) {φ : String → Rat}
    (hP : ∀ e ∈ t.edges, P e = e.difference φ)
    (hl : l ∈ t.graph.foundLoops t.graph.forest.edges) : l.total (fun i => P (t.edge i)) = 0 := by
  have hgrown := Forest.isGrown_forest t.graph
  refine Graph.total_foundLoop (φ := fun n => φ (t.node n).name) hgrown.independent
    hgrown.lt_edgeCount hl fun i hi => ?_
  rw [edgeCount_graph] at hi
  rw [hP _ (edge_mem hi), ht.difference_graph φ hi]

theorem IsRegistered.isParallelTo_of_mem_others (ht : t.IsRegistered) {p : ParallelGroup}
    (hp : p ∈ t.graph.parallelGroups) (hi : i ∈ p.others) :
    (t.edge p.representative).isParallelTo (t.edge i) = true := by
  obtain ⟨hr, hlt, hparallel⟩ := Graph.isParallel_of_mem_others hp hi
  rw [edgeCount_graph] at hr hlt
  rwa [← ht.isParallel_graph hr hlt]

/-- **Potentials that come from nodes satisfy the laws**, whatever the declared directions of the
edges, with one exception: the equality of two edges declared in opposite directions does not
hold when their two nodes have different potentials. -/
theorem potentialLaw_of_difference_iff (ht : t.IsRegistered) (k : Context Rat) (φ : String → Rat)
    (hρ : t.Assigns (t.analyze k).2 ρ (Edge.difference φ)) :
    ∀ q ∈ (t.analyze k).1.potentialLaws, q.Holds ρ ↔
      ¬ ∃ d ∈ t.edges, ∃ e ∈ t.edges, (t.analyze k).2.Equates d e q ∧ d.IsReverseOf e ∧
        φ d.first.name ≠ φ d.second.name := by
  intro q hq
  constructor
  · rintro hholds ⟨d, hd, e, he, hequates, hreverse, hne⟩
    exact hne (hreverse.difference_eq_iff.1 ((hρ.equates_holds_iff hd he hequates).1 hholds))
  · intro hnone
    obtain ⟨l, hl, hlaw⟩ | ⟨p, hp, i, hi, hlaw⟩ := (isAnalysis t k).mem_potentialLaws hq
    · exact (hρ.loopLaw_holds_iff (lt_of_mem_foundLoops hl) hlaw).2
        (ht.total_foundLoop (fun _ _ => rfl) hl)
    · obtain ⟨hr, hi'⟩ := mem_edges_of_mem_others hp hi
      rw [hρ.equates_holds_iff hr hi' hlaw]
      obtain hsame | hreverse := (Edge.isParallelTo_iff).1 (ht.isParallelTo_of_mem_others hp hi)
      · rw [Edge.difference, Edge.difference, hsame.1, hsame.2]
      · by_contra hne
        exact hnone ⟨_, hr, _, hi', hlaw, hreverse, fun heq =>
          hne (hreverse.difference_eq_iff.2 heq)⟩

/-- A source and a resistor in opposite directions between the same nodes: their equality does not
hold of potentials that come from the nodes. -/
theorem exists_potentialLaw_of_reverse :
    let a : Node := ⟨"a", false⟩
    let gnd := Node.ground "gnd"
    let t := (empty.addEdge ⟨gnd, a, "V0"⟩).addEdge ⟨a, gnd, "R1"⟩
    let φ : String → Rat := fun name => if name = "a" then 1 else 0
    let k : Context Rat := .new
    let ρ := t.reading (t.analyze k).2 (Edge.difference φ)
    t.IsRegistered ∧ t.Assigns (t.analyze k).2 ρ (Edge.difference φ) ∧
      ∃ q ∈ (t.analyze k).1.potentialLaws, ¬ q.Holds ρ := by
  intro a gnd t φ k ρ
  have ht : t.IsRegistered := .addEdge _ (.addEdge _ .empty)
  exact ⟨ht, assigns_reading_analyze ht isNumbered_new, by decide +kernel⟩

/-- Of a loop and a pair of opposite edges in it, the law of the loop holds. -/
theorem potentialLaw_of_difference_loop :
    let a : Node := ⟨"a", false⟩
    let b : Node := ⟨"b", false⟩
    let gnd := Node.ground "gnd"
    let t := (((empty.addEdge ⟨gnd, a, "V0"⟩).addEdge ⟨a, b, "R0"⟩).addEdge
      ⟨gnd, b, "R1"⟩).addEdge ⟨b, gnd, "R2"⟩
    let φ : String → Rat := fun name => if name = "a" then 3 else if name = "b" then 1 else 0
    let k : Context Rat := .new
    let ρ := t.reading (t.analyze k).2 (Edge.difference φ)
    ((t.analyze k).1.potentialLaws.map fun q => decide (q.Holds ρ)) = [true, false] ∧
      ∀ q ∈ (t.analyze k).1.potentialLaws, q.Holds ρ ↔
        ¬ ∃ d ∈ t.edges, ∃ e ∈ t.edges, (t.analyze k).2.Equates d e q ∧ d.IsReverseOf e ∧
          φ d.first.name ≠ φ d.second.name := by
  intro a b gnd t φ k ρ
  have ht : t.IsRegistered := .addEdge _ (.addEdge _ (.addEdge _ (.addEdge _ .empty)))
  exact ⟨by decide +kernel,
    potentialLaw_of_difference_iff ht k φ (assigns_reading_analyze ht isNumbered_new)⟩

/-! ### Only potentials of nodes satisfy the laws -/

theorem isSpanning {α : Type} [Scalar α] {k : Context α} (h : (t.analyze k).1.HasFullTree) :
    t.graph.IsSpanning t.graph.forest.edges :=
  have hgrown := Forest.isGrown_forest t.graph
  ⟨hgrown.independent, hgrown.nodup, hgrown.lt_edgeCount, hasFullTree_iff.1 h⟩

/-- Parallel edges begin at the same node. -/
def IsAligned (t : Topology) : Prop :=
  ∀ d ∈ t.edges, ∀ e ∈ t.edges, d.isParallelTo e = true → d.first.name = e.first.name

instance (t : Topology) : Decidable t.IsAligned :=
  inferInstanceAs (Decidable (∀ d ∈ t.edges, ∀ e ∈ t.edges, _ = true → _ = _))

theorem IsAligned.difference_eq (haligned : t.IsAligned) {d e : Edge} (hd : d ∈ t.edges)
    (he : e ∈ t.edges) (h : d.isParallelTo e = true) (φ : String → Rat) :
    d.difference φ = e.difference φ := by
  have hfirst := haligned d hd e he h
  obtain ⟨-, hsecond⟩ | hreverse := Edge.isParallelTo_iff.1 h
  · rw [Edge.difference, Edge.difference, hfirst, hsecond]
  · rw [Edge.difference, Edge.difference, hreverse.second, ← hreverse.first, hfirst]

theorem IsRegistered.first_eq_of_isParallel (ht : t.IsRegistered) (haligned : t.IsAligned) :
    ∀ i < t.graph.edgeCount, ∀ j < t.graph.edgeCount, t.graph.isParallel i j = true →
      t.graph.first i = t.graph.first j := by
  intro i hi j hj hij
  rw [edgeCount_graph] at hi hj
  rw [ht.isParallel_graph hi hj] at hij
  rw [first_graph hi, first_graph hj]
  exact position_congr (haligned _ (edge_mem hi) _ (edge_mem hj) hij)

theorem exists_difference_iff (ht : t.IsRegistered) (haligned : t.IsAligned)
    (hspan : (t.analyze k).1.HasFullTree)
    (hρ : t.Assigns (t.analyze k).2 ρ P) :
    (∀ q ∈ (t.analyze k).1.potentialLaws, q.Holds ρ) ↔
      ∃ φ, ∀ e ∈ t.edges, P e = e.difference φ := by
  rw [(isAnalysis t k).potentialLaws_hold_iff hρ]
  constructor
  · intro hconsistent
    obtain ⟨φ, hφ⟩ := hconsistent.exists_difference ht.isClosed (isSpanning hspan)
      (ht.first_eq_of_isParallel haligned)
    refine ⟨fun name => φ (t.position ⟨name, false⟩), fun e he => ?_⟩
    obtain ⟨i, hi, rfl⟩ := exists_edge he
    rw [difference_position φ hi]
    exact hφ i (edgeCount_graph ▸ hi)
  · rintro ⟨φ, hφ⟩
    refine ⟨fun l hl => ht.total_foundLoop hφ hl, fun p hp i hi => ?_⟩
    obtain ⟨hr, hi'⟩ := mem_edges_of_mem_others hp hi
    rw [hφ _ hr, hφ _ hi']
    exact haligned.difference_eq hr hi' (ht.isParallelTo_of_mem_others hp hi) φ

/-- **The laws of potentials are complete.** With a full spanning tree, and with parallel edges that
begin at the same node, the potentials that satisfy all laws are those that come from potentials of
the nodes. Which ones these are does not depend on the order of the edges. -/
theorem potentialLaws_complete (ht : t.IsRegistered) (haligned : t.IsAligned)
    (hspan : (t.analyze k).1.HasFullTree)
    (hρ : t.Assigns (t.analyze k).2 ρ P) :
    ((∀ q ∈ (t.analyze k).1.potentialLaws, q.Holds ρ) ↔
      ∃ φ, ∀ e ∈ t.edges, P e = e.difference φ) ∧
    ∀ (t' : Topology) (k' : Context Rat) (ρ' : Environment Rat), t'.IsRegistered →
      t'.edges.Perm t.edges →
      (t'.analyze k').1.HasFullTree → t'.Assigns (t'.analyze k').2 ρ' P →
      ((∀ q ∈ (t'.analyze k').1.potentialLaws, q.Holds ρ') ↔
        ∀ q ∈ (t.analyze k).1.potentialLaws, q.Holds ρ) := by
  have hiff := exists_difference_iff ht haligned hspan hρ
  refine ⟨hiff, fun t' k' ρ' ht' hperm hspan' hρ' => ?_⟩
  have haligned' : t'.IsAligned := fun d hd e he =>
    haligned d (hperm.mem_iff.1 hd) e (hperm.mem_iff.1 he)
  rw [hiff, exists_difference_iff ht' haligned' hspan' hρ']
  simp only [hperm.mem_iff]

/-- A loop with a pair of parallel edges, declared in two orders. -/
theorem potentialLaws_complete_loop :
    let a : Node := ⟨"a", false⟩
    let b : Node := ⟨"b", false⟩
    let gnd := Node.ground "gnd"
    let t := (((empty.addEdge ⟨gnd, a, "V0"⟩).addEdge ⟨a, b, "R0"⟩).addEdge
      ⟨gnd, b, "R1"⟩).addEdge ⟨gnd, b, "R2"⟩
    let t' := (((empty.addEdge ⟨gnd, b, "R2"⟩).addEdge ⟨gnd, b, "R1"⟩).addEdge
      ⟨a, b, "R0"⟩).addEdge ⟨gnd, a, "V0"⟩
    let k : Context Rat := .new
    let P : Edge → Rat := fun e => if e.name = "V0" then 3 else if e.name = "R0" then -2 else 1
    let ρ := t.reading (t.analyze k).2 P
    let ρ' := t'.reading (t'.analyze k).2 P
    (t.analyze k).1.potentialLaws.length = 2 ∧ (t'.analyze k).1.potentialLaws.length = 2 ∧
      ((∀ q ∈ (t.analyze k).1.potentialLaws, q.Holds ρ) ↔
        ∃ φ, ∀ e ∈ t.edges, P e = e.difference φ) ∧
      ((∀ q ∈ (t'.analyze k).1.potentialLaws, q.Holds ρ') ↔
        ∀ q ∈ (t.analyze k).1.potentialLaws, q.Holds ρ) := by
  intro a b gnd t t' k P ρ ρ'
  have ht : t.IsRegistered := .addEdge _ (.addEdge _ (.addEdge _ (.addEdge _ .empty)))
  have ht' : t'.IsRegistered := .addEdge _ (.addEdge _ (.addEdge _ (.addEdge _ .empty)))
  have hspan : (t.analyze k).1.HasFullTree := hasFullTree_iff.2 (by decide +kernel)
  have hspan' : (t'.analyze k).1.HasFullTree := hasFullTree_iff.2 (by decide +kernel)
  have hreverse : t'.edges = t.edges.reverse := by decide +kernel
  have hperm : t'.edges.Perm t.edges := by
    rw [hreverse]
    exact List.reverse_perm _
  obtain ⟨hiff, horder⟩ := potentialLaws_complete ht (by decide +kernel) hspan
    (assigns_reading_analyze ht isNumbered_new)
  exact ⟨by decide +kernel, by decide +kernel, hiff,
    horder t' k ρ' ht' hperm hspan' (assigns_reading_analyze ht' isNumbered_new)⟩

end Topology

end Kirchhoff
