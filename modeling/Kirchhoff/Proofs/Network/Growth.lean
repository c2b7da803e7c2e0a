import Kirchhoff.Proofs.Network.Forest

/-!
# What a spanning forest reaches

Growing a forest lists the nodes that it reaches at the end, each of them once. A node that is
visited has the other ends of its edges reached, and there are as many visits as nodes, so that
every node of the forest is visited. The nodes of the forest are therefore closed under the edges
of the circuit (`first_mem_forest_iff`): if the circuit hangs together, the forest reaches every
node as soon as it reaches one.

An edge is taken only from a node that is ground or reached before, so that the edges of the forest
join every node of it to a ground node (`isRooted_forest`). They need not join two ground nodes to
each other: each of them may be the root of a tree of its own.
-/

namespace Kirchhoff

namespace Forest

variable {g : Graph} {f f' : Forest} {e m n p : ℕ}

/-! ### The order of the nodes -/

/-- The nodes are listed once, and are nodes of the circuit. -/
structure IsListing (g : Graph) (f : Forest) : Prop where
  nodup : f.nodes.Nodup
  lt_nodeCount : ∀ n ∈ f.nodes, n < g.nodeCount

/-- No forest has more nodes than the circuit. -/
theorem IsListing.length_le (h : f.IsListing g) : f.nodes.length ≤ g.nodeCount := by
  have hsub := h.nodup.subperm fun n hn => List.mem_range.2 (h.lt_nodeCount n hn)
  simpa using hsub.length_le

theorem nodup_reach (h : f.nodes.Nodup) : (f.reach n).nodes.Nodup := by
  unfold reach
  split
  · exact h
  · rename_i hn
    exact h.append (List.nodup_singleton n) (by simpa using hn)

/-- Taking an edge lists one node more. -/
theorem IsListing.take (h : f.IsListing g) (hclosed : g.IsClosed) (he : f.Admits g e) :
    (f.take g e).IsListing g := by
  obtain ⟨hfirst, hsecond⟩ := hclosed e he.lt_edgeCount
  refine ⟨nodup_reach (nodup_reach h.nodup), fun n hn => ?_⟩
  obtain rfl | rfl | hn := mem_take.1 hn
  · exact hsecond
  · exact hfirst
  · exact h.lt_nodeCount n hn

theorem GrowsTo.isListing (h : GrowsTo g f f') (hclosed : g.IsClosed) (hf : f.IsListing g) :
    f'.IsListing g := by
  induction h with
  | refl => exact hf
  | tail _ htake ih =>
    obtain ⟨e, he, rfl⟩ := htake
    exact ih.take hclosed he

theorem isListing_forest (hclosed : g.IsClosed) : g.forest.IsListing g :=
  (growsTo_forest g).isListing hclosed ⟨List.nodup_nil, by simp⟩

/-! ### Visits -/

/-- Both ends of the edge are reached. -/
def HasEnds (g : Graph) (f : Forest) (e : ℕ) : Prop := g.first e ∈ f.nodes ∧ g.second e ∈ f.nodes

/-- Both ends of every edge at the node are reached. -/
def IsVisited (g : Graph) (f : Forest) (n : ℕ) : Prop := ∀ e ∈ g.incident n, f.HasEnds g e

theorem GrowsTo.hasEnds (h : GrowsTo g f f') (he : f.HasEnds g e) : f'.HasEnds g e :=
  he.imp (h.isPrefix_nodes.subset ·) (h.isPrefix_nodes.subset ·)

/-- An edge at a node of the forest has both ends in it after its step. -/
theorem hasEnds_growStep (hf : f.IsGrown g) (hn : n ∈ f.nodes) (he : g.touches e n = true) :
    (f.growStep g n e).HasEnds g e := by
  unfold growStep
  split
  · exact ⟨mem_take.2 (.inr (.inl rfl)), mem_take.2 (.inl rfl)⟩
  · rename_i hnot
    simp only [mayGrow, Bool.and_eq_true, Bool.or_eq_true, Bool.not_eq_true', beq_iff_eq,
      List.contains_eq_mem, decide_eq_false_iff_not] at hnot
    by_cases htaken : e ∈ f.edges
    · exact hf.reached e htaken
    · obtain rfl | rfl : g.first e = n ∨ g.second e = n := by simpa [Graph.touches] using he
      · exact ⟨hn, by_contra fun hnew => hnot ⟨htaken, .inl ⟨rfl, hnew⟩⟩⟩
      · exact ⟨by_contra fun hnew => hnot ⟨htaken, .inr ⟨rfl, hnew⟩⟩, hn⟩

theorem hasEnds_foldl_growStep {es : List ℕ} (hes : ∀ e ∈ es, e ∈ g.incident n) (hf : f.IsGrown g)
    (hn : n ∈ f.nodes) : ∀ e ∈ es, (es.foldl (growStep g n) f).HasEnds g e := by
  have hlt : ∀ e ∈ g.incident n, e < g.edgeCount := fun e he =>
    List.mem_range.1 (List.mem_filter.1 he).1
  induction es generalizing f with
  | nil => simp
  | cons d es ih =>
    obtain ⟨hd, hes⟩ := List.forall_mem_cons.1 hes
    have hstep : GrowsTo g f (f.growStep g n d) := growsTo_growStep hn (hlt d hd)
    have hn' : n ∈ (f.growStep g n d).nodes := hstep.isPrefix_nodes.subset hn
    refine List.forall_mem_cons.2 ⟨?_, ih hes (hstep.isGrown hf) hn'⟩
    have hrest : GrowsTo g (f.growStep g n d) (es.foldl (growStep g n) (f.growStep g n d)) :=
      growsTo_foldl_growStep hn' fun e he => hlt e (hes e he)
    exact hrest.hasEnds (hasEnds_growStep hf hn (List.mem_filter.1 hd).2)

theorem isVisited_visit (hf : f.IsGrown g) (hn : n ∈ f.nodes) : (f.visit g n).IsVisited g n :=
  hasEnds_foldl_growStep (fun _ he => he) hf hn

/-- The nodes at the places before a given one are visited. -/
def IsVisitedTo (g : Graph) (f : Forest) (p : ℕ) : Prop :=
  ∀ q < p, ∀ n ∈ f.nodes[q]?, f.IsVisited g n

theorem IsVisitedTo.visitAt (h : f.IsVisitedTo g p) (hf : f.IsGrown g) :
    (f.visitAt g p).IsVisitedTo g (p + 1) := by
  have hgrows : GrowsTo g f (f.visitAt g p) := growsTo_visitAt p
  unfold Forest.visitAt at hgrows ⊢
  cases hp : f.nodes[p]? with
  | none =>
    intro q hq n hn
    obtain hq | rfl := Nat.lt_succ_iff_lt_or_eq.1 hq
    · exact h q hq n hn
    · cases hp.symm.trans hn
  | some m =>
    rw [hp] at hgrows
    intro q hq n hn
    -- Up to the visited place, the order of the nodes stays what it was.
    have hqlt : q < f.nodes.length :=
      (Nat.lt_succ_iff.1 hq).trans_lt (List.getElem?_eq_some_iff.1 hp).1
    have hn : f.nodes[q]? = some n := by
      rw [← hn, List.getElem?_eq_getElem hqlt,
        List.getElem?_eq_getElem (hqlt.trans_le hgrows.isPrefix_nodes.length_le),
        hgrows.isPrefix_nodes.getElem hqlt]
    obtain hq | rfl := Nat.lt_succ_iff_lt_or_eq.1 hq
    · exact fun e he => hgrows.hasEnds (h q hq n hn e he)
    · obtain rfl : m = n := Option.some.inj (hp.symm.trans hn)
      exact isVisited_visit hf (List.mem_of_getElem? hp)

/-- Visits go through the nodes in the order they were reached in. -/
theorem isVisitedTo_foldl (hf : f.IsGrown g) (p : ℕ) :
    ((List.range p).foldl (visitAt g) f).IsVisitedTo g p := by
  induction p with
  | zero => exact fun q hq => absurd hq (Nat.not_lt_zero q)
  | succ p ih =>
    rw [List.range_succ, List.foldl_append, List.foldl_cons, List.foldl_nil]
    have hgrows : GrowsTo g f ((List.range p).foldl (visitAt g) f) :=
      growsTo_foldl fun _ _ place _ => growsTo_visitAt place
    exact ih.visitAt (hgrows.isGrown hf)

/-- Every node of the spanning forest is visited. -/
theorem isVisited_forest (hclosed : g.IsClosed) (hn : n ∈ g.forest.nodes) :
    g.forest.IsVisited g n := by
  obtain ⟨q, hq, rfl⟩ := List.getElem_of_mem hn
  have hlt : q < g.nodeCount := hq.trans_le (isListing_forest hclosed).length_le
  exact isVisitedTo_foldl ((growsTo_anchored g).isGrown isGrown_empty) _ q hlt _
    (List.getElem?_eq_getElem hq)

/-- The nodes of the spanning forest are closed under the edges of the circuit. -/
theorem first_mem_forest_iff (hclosed : g.IsClosed) (he : e < g.edgeCount) :
    g.first e ∈ g.forest.nodes ↔ g.second e ∈ g.forest.nodes := by
  have hincident {n : ℕ} (hn : g.first e = n ∨ g.second e = n) : e ∈ g.incident n :=
    List.mem_filter.2 ⟨List.mem_range.2 he, by simpa [Graph.touches] using hn⟩
  constructor
  · exact fun hfirst => (isVisited_forest hclosed hfirst e (hincident (.inl rfl))).2
  · exact fun hsecond => (isVisited_forest hclosed hsecond e (hincident (.inr rfl))).1

/-! ### Roots -/

/-- The edges of the forest join every node of it to a ground node. -/
def IsRooted (g : Graph) (f : Forest) : Prop :=
  ∀ n ∈ f.nodes, ∃ m, g.isGround m = true ∧ (g.joining f.edges).Reachable m n

/-- A node that is reached hangs at the root of the other end. -/
theorem IsRooted.take (h : f.IsRooted g) (he : f.Admits g e) : (f.take g e).IsRooted g := by
  have hmono {m n : ℕ} (hmn : (g.joining f.edges).Reachable m n) :
      (g.joining (f.take g e).edges).Reachable m n :=
    Graph.reachable_mono (by simp [edges_take]) hmn
  have hedge : (g.joining (f.take g e).edges).Reachable (g.first e) (g.second e) :=
    Graph.reachable_of_mem (by simp [edges_take])
  obtain ⟨r, hr, hroot⟩ := he.rooted
  obtain ⟨m, hm, hmr⟩ : ∃ m, g.isGround m = true ∧
      (g.joining (f.take g e).edges).Reachable m r := by
    obtain hground | hreached := hroot
    · exact ⟨r, hground, .rfl⟩
    · obtain ⟨m, hm, hmr⟩ := h r hreached
      exact ⟨m, hm, hmono hmr⟩
  obtain ⟨hmfirst, hmsecond⟩ : (g.joining (f.take g e).edges).Reachable m (g.first e) ∧
      (g.joining (f.take g e).edges).Reachable m (g.second e) := by
    obtain rfl | rfl := hr
    · exact ⟨hmr, hmr.trans hedge⟩
    · exact ⟨hmr.trans hedge.symm, hmr⟩
  intro n hn
  obtain rfl | rfl | hn := mem_take.1 hn
  · exact ⟨m, hm, hmsecond⟩
  · exact ⟨m, hm, hmfirst⟩
  · obtain ⟨m, hm, hmn⟩ := h n hn
    exact ⟨m, hm, hmono hmn⟩

theorem GrowsTo.isRooted (h : GrowsTo g f f') (hf : f.IsRooted g) : f'.IsRooted g := by
  induction h with
  | refl => exact hf
  | tail _ htake ih =>
    obtain ⟨e, he, rfl⟩ := htake
    exact ih.take he

theorem isRooted_forest (g : Graph) : g.forest.IsRooted g :=
  (growsTo_forest g).isRooted (by simp [IsRooted])

/-! ### Edges at the ground -/

/-- Of an edge that leads away from a ground node, an end is reached when its turn has come: if it
is not taken, both ends are reached, or an edge taken before ends at one of them. -/
theorem reaches_anchorStep (hf : f.IsGrown g) (hproper : g.first e ≠ g.second e)
    (hground : g.isGround (g.first e) = true ∨ g.isGround (g.second e) = true) :
    g.first e ∈ (f.anchorStep g e).nodes ∨ g.second e ∈ (f.anchorStep g e).nodes := by
  have hend {d n : ℕ} (hd : d ∈ f.edges) (hn : g.touches d n = true) : n ∈ f.nodes := by
    obtain rfl | rfl : g.first d = n ∨ g.second d = n := by simpa [Graph.touches] using hn
    · exact (hf.reached d hd).1
    · exact (hf.reached d hd).2
  unfold anchorStep
  split
  · exact .inl (mem_take.2 (.inr (.inl rfl)))
  · rename_i hnot
    by_cases hfirst : g.first e ∈ f.nodes
    · exact .inl hfirst
    · by_cases hblocked : f.isBlocked g (g.first e) (g.second e) = true
      · obtain ⟨d, hd, htouches⟩ := List.any_eq_true.1 hblocked
        simp only [Bool.or_eq_true, Bool.and_eq_true] at htouches
        obtain ⟨htouches, -⟩ | ⟨htouches, -⟩ := htouches
        · exact .inl (hend hd htouches)
        · exact .inr (hend hd htouches)
      · refine absurd ?_ hnot
        simp [mayAnchor, Graph.isSelfLoop, hproper, hground, hfirst, hblocked]

/-- Of an edge that leads away from a ground node, an end is reached before nodes are visited. -/
theorem reaches_anchored (he : e < g.edgeCount) (hproper : g.first e ≠ g.second e)
    (hground : g.isGround (g.first e) = true ∨ g.isGround (g.second e) = true) :
    g.first e ∈ (anchored g).nodes ∨ g.second e ∈ (anchored g).nodes := by
  obtain ⟨before, after, hsplit⟩ := List.append_of_mem (List.mem_range.2 he)
  have hlt : ∀ d ∈ before ++ e :: after, d < g.edgeCount := fun d hd =>
    List.mem_range.1 (hsplit ▸ hd)
  rw [anchored, hsplit, List.foldl_append, List.foldl_cons]
  have hbefore : GrowsTo g {} (before.foldl (anchorStep g) {}) :=
    growsTo_foldl fun _ _ d hd => growsTo_anchorStep (hlt d (List.mem_append_left _ hd))
  have hafter : GrowsTo g ((before.foldl (anchorStep g) {}).anchorStep g e)
      (after.foldl (anchorStep g) ((before.foldl (anchorStep g) {}).anchorStep g e)) :=
    growsTo_foldl fun _ _ d hd => growsTo_anchorStep
      (hlt d (List.mem_append_right _ (List.mem_cons_of_mem _ hd)))
  have hsubset := hafter.isPrefix_nodes.subset
  exact (reaches_anchorStep (hbefore.isGrown isGrown_empty) hproper hground).imp
    (hsubset ·) (hsubset ·)

end Forest

/-! ### Circuits that hang together -/

namespace Graph

variable {g : Graph} {m n r : ℕ}

theorem lt_nodeCount_of_isGround (h : g.isGround n = true) : n < g.nodeCount := by
  by_contra hn
  rw [isGround, List.getD, List.getElem?_eq_none (not_lt.1 hn)] at h
  cases h

/-- The forest reaches all nodes that hang together with a ground node, unless there is no other. -/
theorem mem_forest_or_eq (hclosed : g.IsClosed) (hr : g.isGround r = true) :
    (∀ n, (g.joining (List.range g.edgeCount)).Reachable r n → n ∈ g.forest.nodes) ∨
      ∀ n, (g.joining (List.range g.edgeCount)).Reachable r n → n = r := by
  by_cases hedge : ∃ e < g.edgeCount, g.first e ≠ g.second e ∧ (g.first e = r ∨ g.second e = r)
  · left
    obtain ⟨e, he, hproper, hend⟩ := hedge
    have hground : g.isGround (g.first e) = true ∨ g.isGround (g.second e) = true :=
      hend.imp (fun hfirst => by rwa [hfirst]) fun hsecond => by rwa [hsecond]
    have hgrows : Forest.GrowsTo g (Forest.anchored g) g.forest :=
      Forest.growsTo_foldl fun _ _ place _ => Forest.growsTo_visitAt place
    have hends : g.first e ∈ g.forest.nodes ↔ g.second e ∈ g.forest.nodes :=
      Forest.first_mem_forest_iff hclosed he
    have hfirst : g.first e ∈ g.forest.nodes :=
      (Forest.reaches_anchored he hproper hground).elim (hgrows.isPrefix_nodes.subset ·)
        fun hsecond => hends.2 (hgrows.isPrefix_nodes.subset hsecond)
    have hmem : r ∈ g.forest.nodes := hend.elim (· ▸ hfirst) (· ▸ hends.1 hfirst)
    intro n hn
    exact joined_induction hn
      (fun e he => Forest.first_mem_forest_iff hclosed (List.mem_range.1 he)) hmem
  · right
    intro n hn
    refine joined_induction (motive := (· = r)) hn (fun e he => ?_) rfl
    -- An edge at the only ground node is a self-loop.
    have hloop (hend : g.first e = r ∨ g.second e = r) : g.first e = g.second e :=
      by_contra fun hproper => hedge ⟨e, List.mem_range.1 he, hproper, hend⟩
    exact ⟨fun hfirst => (hloop (.inl hfirst)).symm.trans hfirst,
      fun hsecond => (hloop (.inr hsecond)).trans hsecond⟩

/-- The edges of the circuit join all nodes to the given one. -/
def HangsTogether (g : Graph) (r : ℕ) : Prop :=
  ∀ n < g.nodeCount, (g.joining (List.range g.edgeCount)).Reachable r n

/-- The edges of the forest join every node to a ground node. -/
theorem HangsTogether.exists_root (h : g.HangsTogether r) (hclosed : g.IsClosed)
    (hr : g.isGround r = true) (hn : n < g.nodeCount) :
    ∃ m, g.isGround m = true ∧ (g.joining g.forest.edges).Reachable m n := by
  obtain hmem | heq := mem_forest_or_eq hclosed hr
  · exact Forest.isRooted_forest g n (hmem n (h n hn))
  · exact ⟨r, hr, heq n (h n hn) ▸ .rfl⟩

/-- The forest has one edge less than there are nodes exactly when its edges join the ground nodes
to each other. -/
theorem HangsTogether.length_forest_iff (h : g.HangsTogether r) (hclosed : g.IsClosed)
    (hr : g.isGround r = true) :
    g.forest.edges.length = g.treeSize ↔
      ∀ m n, g.isGround m = true → g.isGround n = true →
        (g.joining g.forest.edges).Reachable m n := by
  have hgrown := Forest.isGrown_forest g
  have hlt : ∀ e ∈ g.forest.edges, g.first e < g.nodeCount ∧ g.second e < g.nodeCount :=
    fun e he => hclosed e (hgrown.lt_edgeCount e he)
  constructor
  · intro hlength m n hm hn
    exact reachable_of_length hgrown.independent hgrown.nodup hlt hlength
      (lt_nodeCount_of_isGround hm) (lt_nodeCount_of_isGround hn)
  · intro hjoined
    have hpos := Nat.ne_zero_of_lt (lt_nodeCount_of_isGround hr)
    refine length_of_reachable hgrown.independent hgrown.nodup hlt hpos fun n hn => ?_
    obtain ⟨m₀, hm₀, hroot₀⟩ := h.exists_root hclosed hr (Nat.pos_of_ne_zero hpos)
    obtain ⟨m, hm, hroot⟩ := h.exists_root hclosed hr hn
    exact hroot₀.symm.trans ((hjoined m₀ m hm₀ hm).trans hroot)

end Graph

end Kirchhoff
