import Kirchhoff.Proofs.Network.Spanning
import Kirchhoff.Proofs.Network.Flows

/-!
# How many laws there are

Three passes write the laws of a network: one law for each loop found, one for each further edge of
a group of parallel edges, and one for each node that is not ground. With one ground node and a full
spanning tree they are as many as the edges, and more by the groups that miss the tree
(`length_laws`).

A loop that is found never has two parallel edges (`Closes.not_isParallel_of_mem`), so that an edge
closes a loop exactly when it is not parallel to an edge of the tree (`loop?_isSome_iff`). The edges
without a loop therefore stand in the groups that meet the tree. Such a group has one edge of the
tree (`eq_of_isParallel`), and all its others are without a loop: what the loops lack, the groups
make up for.
-/

namespace Kirchhoff

/-- No edge of the group is an edge of the tree. -/
def ParallelGroup.misses (p : ParallelGroup) (tree : List ℕ) : Bool :=
  p.members.all fun e => !tree.contains e

namespace Graph

variable {g : Graph} {allowed passed walked forest : List ℕ} {c d e n m v : ℕ} {l : Loop}
  {p q : ParallelGroup}

/-! ### Which edges close a loop -/

/-- A walk goes on along no edge that is parallel to one walked before. -/
theorem Closes.not_isParallel_walked (h : g.Closes allowed passed walked n l v) :
    ∀ e ∈ l.edges, ∀ d ∈ walked, g.isParallel d e = false := by
  induction h with
  | stop _ => simp
  | along _ hmay _ ih | against _ hmay _ ih =>
    intro e he d hd
    simp only [Loop.mem_edges_along, Loop.mem_edges_against] at he
    obtain rfl | he := he
    · exact (mayWalk_iff.1 hmay).2.2 d hd
    · exact ih e he d (List.mem_cons_of_mem _ hd)

/-- A walk has no two parallel edges. -/
theorem Closes.not_isParallel_of_mem (h : g.Closes allowed passed walked n l v) :
    ∀ d ∈ l.edges, ∀ e ∈ l.edges, d ≠ e → g.isParallel d e = false := by
  induction h with
  | stop _ => simp
  | along _ _ h ih | against _ _ h ih =>
    have hlater := h.not_isParallel_walked
    intro d hd e he hne
    simp only [Loop.mem_edges_along, Loop.mem_edges_against] at hd he
    obtain rfl | hd := hd <;> obtain rfl | he := he
    · exact absurd rfl hne
    · exact hlater e he d List.mem_cons_self
    · rw [← Bool.not_eq_true]
      intro hde
      exact Bool.false_ne_true ((hlater d hd e List.mem_cons_self).symm.trans (isParallel_symm hde))
    · exact ih d hd e he hne

theorem difference_of_isParallel {φ : ℕ → Rat} (h : g.isParallel d e = true) :
    g.difference φ d = g.difference φ e ∨ g.difference φ d = -g.difference φ e := by
  obtain ⟨h1, h2⟩ | ⟨h1, h2⟩ := isParallel_iff.1 h
  · exact .inl (by rw [difference, difference, h1, h2])
  · exact .inr (by rw [difference, difference, h1, h2, neg_sub])

/-- One volt across an edge of a forest is one volt across an edge parallel to it. -/
theorem difference_ne_zero_of_isParallel {φ : ℕ → Rat} (hde : g.isParallel d e = true)
    (hd : 1 = g.difference φ d) : g.difference φ e ≠ 0 := by
  intro he
  obtain heq | heq := difference_of_isParallel (φ := φ) hde <;>
    rw [heq, he] at hd <;> norm_num at hd

/-- Independent edges are not parallel to each other. -/
theorem Independent.eq_of_isParallel (h : g.Independent forest) (hd : d ∈ forest) (he : e ∈ forest)
    (hde : g.isParallel d e = true) : d = e := by
  by_contra hne
  obtain ⟨φ, hφ⟩ := h (Pi.single d 1)
  have hone := hφ d hd
  rw [Pi.single_eq_same] at hone
  have hzero := hφ e he
  rw [Pi.single_eq_of_ne (Ne.symm hne)] at hzero
  exact difference_ne_zero_of_isParallel hde hone hzero.symm

/-- An edge that is parallel to one of a forest closes no loop with it: the loop would have both of
them. -/
theorem loop?_eq_none (h : g.Independent forest) (hc : c ∉ forest) (hd : d ∈ forest)
    (hdc : g.isParallel d c = true) : g.loop? forest c = none := by
  rw [Option.eq_none_iff_forall_ne_some]
  intro l hl
  have hcloses := closes_of_loop? hl h
  have hedge : c ∈ l.edges := hcloses.mem_edges h List.not_mem_nil
  have hne : d ≠ c := fun heq => hc (heq ▸ hd)
  have hdmem : d ∈ l.edges := by
    by_contra hdmem
    -- One volt across the edge of the forest: none along the loop, but some across the other edge.
    obtain ⟨φ, hφ⟩ := h (Pi.single d 1)
    have hone := hφ d hd
    rw [Pi.single_eq_same] at hone
    have hnone : l.total (Pi.single d 1) = 0 := Loop.total_eq_zero fun e he =>
      Pi.single_eq_of_ne (ne_of_mem_of_not_mem he hdmem) 1
    have hzero : l.total (Pi.single d 1 - g.difference φ) = 0 := by
      rw [Loop.total_sub, hnone, hcloses.total_eq fun _ _ => rfl, sub_self, sub_zero]
    have hrest : ∀ e ∈ forest ++ [c], e ≠ c →
        (Pi.single d 1 - g.difference φ : ℕ → Rat) e = 0 := by
      intro e he hec
      have he : e ∈ forest := (List.mem_append.1 he).resolve_right (by simpa using hec)
      rw [Pi.sub_apply, hφ e he, sub_self]
    have hacross : (Pi.single d 1 - g.difference φ : ℕ → Rat) c = 0 := by
      obtain htotal | htotal := hcloses.total_eq_or hrest hedge
      · exact htotal.symm.trans hzero
      · exact neg_eq_zero.1 (htotal.symm.trans hzero)
    rw [Pi.sub_apply, Pi.single_eq_of_ne (Ne.symm hne), zero_sub, neg_eq_zero] at hacross
    exact difference_ne_zero_of_isParallel hdc hone hacross
  exact Bool.false_ne_true ((hcloses.not_isParallel_of_mem d hdmem c hedge hne).symm.trans hdc)

/-- The edge is parallel to one of the forest. -/
def isShadowed (g : Graph) (forest : List ℕ) (c : ℕ) : Bool := forest.any fun d => g.isParallel d c

theorem isShadowed_iff :
    g.isShadowed forest c = true ↔ ∃ d ∈ forest, g.isParallel d c = true := by
  simp [isShadowed]

/-- Beside a forest that joins all nodes, an edge closes a loop exactly when it is not parallel to
an edge of the forest. -/
theorem loop?_isSome_iff (hclosed : g.IsClosed) (h : g.IsSpanning forest) (hc : c < g.edgeCount)
    (hforest : c ∉ forest) : (g.loop? forest c).isSome = !g.isShadowed forest c := by
  cases hshadow : g.isShadowed forest c with
  | true =>
    obtain ⟨d, hd, hdc⟩ := isShadowed_iff.1 hshadow
    rw [loop?_eq_none h.independent hforest hd hdc]
    rfl
  | false =>
    refine loop?_isSome hclosed h hc hforest fun d hd => ?_
    rw [← Bool.not_eq_true]
    exact fun hdc => Bool.false_ne_true (hshadow.symm.trans (isShadowed_iff.2 ⟨d, hd, hdc⟩))

/-- The edges outside a forest are those with a loop and those parallel to one of the forest. -/
theorem length_foundLoops (hclosed : g.IsClosed) (h : g.IsSpanning forest) :
    (g.foundLoops forest).length + ((g.chords forest).filter (g.isShadowed forest)).length =
      (g.chords forest).length := by
  have hfound : (g.foundLoops forest).length =
      ((g.chords forest).filter (!g.isShadowed forest ·)).length := by
    rw [foundLoops, loops, List.filterMap_map, List.length_filterMap_eq_countP,
      ← List.countP_eq_length_filter]
    refine List.countP_congr fun c hc => ?_
    obtain ⟨hlt, hmem⟩ := mem_chords.1 hc
    rw [Function.comp_apply, loop?_isSome_iff hclosed h hlt hmem]
  rw [hfound, add_comm, ← List.length_append]
  exact (List.filter_append_perm _ _).length_eq

theorem nodup_chords : (g.chords forest).Nodup := List.nodup_range.filter _

/-- The edges are those of a forest and those outside it. -/
theorem length_chords (h : g.IsSpanning forest) :
    forest.length + (g.chords forest).length = g.edgeCount := by
  have hforest : ((List.range g.edgeCount).filter (forest.contains ·)).Perm forest := by
    refine (List.perm_ext_iff_of_nodup (List.nodup_range.filter _) h.nodup).2 fun e => ?_
    simp only [List.mem_filter, List.mem_range, List.contains_eq_mem, decide_eq_true_eq]
    exact ⟨And.right, fun he => ⟨h.lt_edgeCount e he, he⟩⟩
  rw [← hforest.length_eq, chords, ← List.length_append]
  exact (List.filter_append_perm _ _).length_eq.trans List.length_range

/-! ### Groups that meet a forest -/

theorem misses_eq_false_iff : p.misses forest = false ↔ ∃ d ∈ p.members, d ∈ forest := by
  simp [ParallelGroup.misses]

/-- The groups with an edge of the forest. -/
def meetingGroups (g : Graph) (forest : List ℕ) : List ParallelGroup :=
  g.parallelGroups.filter fun p => !p.misses forest

theorem mem_meetingGroups :
    p ∈ g.meetingGroups forest ↔ p ∈ g.parallelGroups ∧ ∃ d ∈ p.members, d ∈ forest := by
  rw [meetingGroups, List.mem_filter, Bool.not_eq_true', misses_eq_false_iff]

/-- Of a group that meets a forest, all edges but one are outside it. -/
theorem length_outside (h : g.Independent forest) (hp : p ∈ g.meetingGroups forest) :
    (p.members.filter fun e => !forest.contains e).length = p.others.length := by
  obtain ⟨hp, d, hd, hdf⟩ := mem_meetingGroups.1 hp
  have hnodup := nodup_members hp
  have hone : (p.members.filter (forest.contains ·)).Perm [d] := by
    refine (List.perm_ext_iff_of_nodup (hnodup.filter _) (List.nodup_singleton d)).2 fun e => ?_
    simp only [List.mem_filter, List.contains_eq_mem, decide_eq_true_eq, List.mem_singleton]
    constructor
    · rintro ⟨he, hef⟩
      exact h.eq_of_isParallel hef hdf (isParallel_of_mem_group hp he hd)
    · rintro rfl
      exact ⟨hd, hdf⟩
  have hall := (List.filter_append_perm (forest.contains ·) p.members).length_eq
  rw [List.length_append, hone.length_eq, List.length_singleton, ParallelGroup.members,
    List.length_cons] at hall
  rw [ParallelGroup.members]
  omega

/-- The edges parallel to one of a forest, without it, are those of the groups that meet it. -/
theorem perm_shadowed (h : g.IsSpanning forest) :
    ((g.chords forest).filter (g.isShadowed forest)).Perm
      ((g.meetingGroups forest).flatMap fun p => p.members.filter fun e => !forest.contains e) := by
  have hnodup : ((g.meetingGroups forest).flatMap fun p =>
      p.members.filter fun e => !forest.contains e).Nodup := by
    refine List.nodup_flatMap.2 ⟨fun p hp => ?_, ?_⟩
    · exact (nodup_members (mem_meetingGroups.1 hp).1).filter _
    · refine (pairwise_parallelGroups.filter _).imp_of_mem fun hp hq hlt => ?_
      have hdisjoint :=
        disjoint_members (mem_meetingGroups.1 hp).1 (mem_meetingGroups.1 hq).1 hlt
      exact fun d hpd hqd => hdisjoint (List.mem_filter.1 hpd).1 (List.mem_filter.1 hqd).1
  refine (List.perm_ext_iff_of_nodup (nodup_chords.filter _) hnodup).2 fun c => ?_
  rw [List.mem_filter, mem_chords, isShadowed_iff]
  simp only [List.mem_flatMap, mem_meetingGroups, List.mem_filter, Bool.not_eq_true',
    List.contains_eq_mem, decide_eq_false_iff_not]
  constructor
  · rintro ⟨⟨hc, hmem⟩, d, hd, hdc⟩
    have hne : d ≠ c := ne_of_mem_of_not_mem hd hmem
    obtain ⟨p, hp, hpd, hpc⟩ := exists_members (h.lt_edgeCount d hd) hc hne hdc
    exact ⟨p, ⟨hp, d, hpd, hd⟩, hpc, hmem⟩
  · rintro ⟨p, ⟨hp, d, hpd, hd⟩, hpc, hmem⟩
    exact ⟨⟨(isParallel_of_mem_members hp hpc).1, hmem⟩, d, hd,
      isParallel_of_mem_group hp hpd hpc⟩

/-- As many edges have no loop as the groups that meet the forest have equalities. -/
theorem length_shadowed (h : g.IsSpanning forest) :
    ((g.chords forest).filter (g.isShadowed forest)).length =
      ((g.meetingGroups forest).map fun p => p.others.length).sum := by
  rw [(perm_shadowed h).length_eq, List.length_flatMap]
  exact congrArg List.sum
    (List.map_congr_left fun p hp => length_outside h.independent hp)

/-- The equalities are those of the groups that meet the forest and those of the others. -/
theorem sum_others (g : Graph) (forest : List ℕ) :
    (g.parallelGroups.map fun p => p.others.length).sum =
      ((g.meetingGroups forest).map fun p => p.others.length).sum +
        ((g.parallelGroups.filter (·.misses forest)).map fun p => p.others.length).sum := by
  have hsplit := (List.filter_append_perm (·.misses forest) g.parallelGroups).map
    fun p => p.others.length
  rw [meetingGroups, add_comm, ← hsplit.sum_nat, List.map_append, List.sum_append]

/-! ### Nodes with a law -/

/-- Every node but the ground has an edge, when a forest joins all nodes. -/
theorem IsSpanning.balance_isEmpty (h : g.IsSpanning forest) (hclosed : g.IsClosed)
    (hn : n < g.nodeCount) (hm : m < g.nodeCount) (hne : m ≠ n) : (g.balance n).isEmpty = false := by
  rw [← Bool.not_eq_true, balance_isEmpty_iff]
  intro hnone
  have hreach := reachable_of_length h.independent h.nodup
    (fun e he => hclosed e (h.lt_edgeCount e he)) h.length hn hm
  refine hne (joined_induction (motive := (· = n)) hreach (fun e he => ?_) rfl)
  have htouches := hnone e (h.lt_edgeCount e he)
  simp only [touches, Bool.or_eq_false_iff, beq_eq_false_iff_ne] at htouches
  exact ⟨fun hfirst => absurd hfirst htouches.1, fun hsecond => absurd hsecond htouches.2⟩

end Graph

namespace Topology

variable {t : Topology} {α : Type} [Scalar α] {k : Context α} {a : Analysis α} {j : ℕ}

/-! ### The laws -/

theorem length_floating (hground : t.nodes.countP (·.isGround) = 1) :
    t.graph.floating.length = t.nodes.length - 1 := by
  have hfloating : t.graph.floating.length = t.nodes.countP fun n => !n.isGround := by
    rw [← map_node_range, List.countP_map, List.countP_eq_length_filter, Graph.floating,
      nodeCount_graph]
    refine congrArg List.length (List.filter_congr fun j _ => ?_)
    rw [Function.comp_apply, isGround_graph]
  have hall := List.length_eq_countP_add_countP (·.isGround) (l := t.nodes)
  have hnot : t.nodes.countP (fun n => !n.isGround) =
      t.nodes.countP fun n => decide ¬n.isGround = true :=
    List.countP_congr fun n _ => by simp
  omega

/-- With one ground node and a full tree, every other node has a law. -/
theorem IsRegistered.length_balances (ht : t.IsRegistered)
    (hground : t.nodes.countP (·.isGround) = 1)
    (h : t.graph.IsSpanning t.graph.forest.edges) :
    ((t.graph.floating.map t.graph.balance).filter (!·.isEmpty)).length = t.nodes.length - 1 := by
  obtain ⟨r, hr, hrground⟩ := exists_ground
    (List.countP_pos_iff.1 (hground ▸ Nat.one_pos : 0 < t.nodes.countP (·.isGround)))
  rw [← length_floating hground, ← List.length_map t.graph.balance]
  refine congrArg List.length (List.filter_eq_self.2 fun terms hterms => ?_)
  obtain ⟨j, hj, rfl⟩ := List.mem_map.1 hterms
  obtain ⟨hlt, hfloat⟩ := List.mem_filter.1 hj
  have hne : r ≠ j := by
    rintro rfl
    simp [hrground] at hfloat
  rw [h.balance_isEmpty ht.isClosed (List.mem_range.1 hlt) (nodeCount_graph ▸ hr) hne]
  rfl

/-- The laws of potentials are one for each loop found and one for each further edge of a group. -/
theorem IsAnalysis.length_potentialLaws (h : t.IsAnalysis k a) :
    a.potentialLaws.length = (t.graph.foundLoops t.graph.forest.edges).length +
      (t.graph.parallelGroups.map fun p => p.others.length).sum := by
  obtain ⟨loopLaws, equalities, hloops, hequalities, heq⟩ := h.potentialLaws
  have hlengths : (t.graph.parallelGroups.map fun p => p.others.length) =
      equalities.map List.length := by
    rw [← List.forall₂_eq_eq_eq, List.forall₂_map_left_iff, List.forall₂_map_right_iff]
    exact hequalities.imp fun _ _ hqs => hqs.length_eq
  rw [heq, List.length_append, List.length_flatten, ← hlengths, hloops.length_eq]

/-- **With one ground node and a full spanning tree, there are as many laws as edges, and one more
for each edge but one of every group of parallel edges that misses the tree.** Only such a group
makes the laws more than the edges. -/
theorem length_laws (ht : t.IsRegistered) (hground : t.nodes.countP (·.isGround) = 1)
    (k : Context α) (hfull : (t.analyze k).1.HasFullTree) :
    let a := (t.analyze k).1
    a.potentialLaws.length + a.flowLaws.length = t.edges.length +
      ((a.parallel.filter (·.misses a.tree)).map fun p => p.members.length - 1).sum ∧
    (t.edges.length < a.potentialLaws.length + a.flowLaws.length ↔
      ∃ p ∈ a.parallel, p.misses a.tree = true) := by
  intro a
  have hcount : a.potentialLaws.length + a.flowLaws.length = t.edges.length +
      ((a.parallel.filter (·.misses a.tree)).map fun p => p.members.length - 1).sum := by
    have hspanning := isSpanning hfull
    have hpotential : a.potentialLaws.length = _ := (isAnalysis t k).length_potentialLaws
    have hflow : _ = a.flowLaws.length := (isAnalysis t k).flowLaws.length_eq
    rw [ht.length_balances hground hspanning, ← nodeCount_graph] at hflow
    have hloops := Graph.length_foundLoops ht.isClosed hspanning
    rw [Graph.length_shadowed hspanning] at hloops
    have hchords := Graph.length_chords hspanning
    rw [edgeCount_graph, hspanning.length, Graph.treeSize] at hchords
    have hgroups : _ = _ + ((a.parallel.filter (·.misses a.tree)).map
        fun p => p.members.length - 1).sum := Graph.sum_others t.graph t.graph.forest.edges
    omega
  refine ⟨hcount, ?_⟩
  rw [hcount, lt_add_iff_pos_right, List.sum_pos_iff_exists_pos_nat]
  constructor
  · rintro ⟨x, hx, -⟩
    obtain ⟨p, hp, -⟩ := List.mem_map.1 hx
    exact ⟨p, (List.mem_filter.1 hp).1, (List.mem_filter.1 hp).2⟩
  · rintro ⟨p, hp, hmisses⟩
    refine ⟨_, List.mem_map_of_mem (List.mem_filter.2 ⟨hp, hmisses⟩), ?_⟩
    exact List.length_pos_iff.2 (Graph.mem_parallelGroups.1 hp).2.2.2

/-- A bridge with a pair of parallel edges across it and another pair along the tree, and a
self-loop twice: the pair across the bridge and the self-loops miss the tree. -/
theorem length_laws_bridge :
    let m : Node := ⟨"m", false⟩
    let n : Node := ⟨"n", false⟩
    let gnd := Node.ground "gnd"
    let t := ((((((empty.addEdge ⟨gnd, m, "V0"⟩).addEdge ⟨m, gnd, "R0"⟩).addEdge
      ⟨gnd, n, "R1"⟩).addEdge ⟨m, n, "R2"⟩).addEdge ⟨n, m, "R3"⟩).addEdge ⟨n, n, "X0"⟩).addEdge
      ⟨n, n, "X1"⟩
    let k : Context Rat := .new
    let a := (t.analyze k).1
    (a.tree = [0, 2] ∧ a.parallel.map (·.members) = [[0, 1], [3, 4], [5, 6]] ∧
      a.potentialLaws.length = 7 ∧ a.flowLaws.length = 2 ∧ t.edges.length = 7) ∧
    a.potentialLaws.length + a.flowLaws.length = t.edges.length +
      ((a.parallel.filter (·.misses a.tree)).map fun p => p.members.length - 1).sum ∧
    (t.edges.length < a.potentialLaws.length + a.flowLaws.length ↔
      ∃ p ∈ a.parallel, p.misses a.tree = true) := by
  intro m n gnd t k a
  have ht : t.IsRegistered := .addEdge _ (.addEdge _ (.addEdge _ (.addEdge _ (.addEdge _
    (.addEdge _ (.addEdge _ .empty))))))
  have hfull : (t.analyze k).1.HasFullTree := hasFullTree_iff.2 (by decide +kernel)
  exact ⟨by decide +kernel, length_laws ht (by decide +kernel) k hfull⟩

end Topology

end Kirchhoff
