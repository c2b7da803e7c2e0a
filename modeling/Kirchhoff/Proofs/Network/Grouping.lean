import Kirchhoff.Proofs.Network.Topology
import Kirchhoff.Network.Laws

/-!
# Groups of parallel edges

One sweep over the edges gathers the parallel ones: an edge that is in no group yet takes in all
edges after it that are in none and parallel to it, and they are marked. The marks before an edge
are those of the edges to which an edge before it is parallel (`IsSwept`), so that what is free and
parallel to a free edge is all that is parallel to it, and the sweep finds the group of an edge
exactly when it is the first of several parallel ones (`parallelGroups_eq`).

The groups are therefore the classes of edges between the same two nodes that have more than one
edge, listed by their first edges (`Topology.IsRegistered.parallelGroups_are_classes`).
-/

namespace Kirchhoff

/-- The edges of a group. -/
def ParallelGroup.members (p : ParallelGroup) : List ℕ := p.representative :: p.others

namespace Graph

variable {g : Graph} {c d e n : ℕ} {p q : ParallelGroup}

/-! ### Parallel edges -/

theorem isParallel_self : g.isParallel e e = true := isParallel_iff.2 (.inl ⟨rfl, rfl⟩)

theorem isParallel_symm (h : g.isParallel d e = true) : g.isParallel e d = true := by
  rw [isParallel_iff] at h ⊢
  obtain ⟨h1, h2⟩ | ⟨h1, h2⟩ := h
  · exact .inl ⟨h1.symm, h2.symm⟩
  · exact .inr ⟨h2.symm, h1.symm⟩

theorem isParallel_trans (h : g.isParallel c d = true) (h' : g.isParallel d e = true) :
    g.isParallel c e = true := by
  rw [isParallel_iff] at h h' ⊢
  obtain ⟨h1, h2⟩ | ⟨h1, h2⟩ := h <;> obtain ⟨h3, h4⟩ | ⟨h3, h4⟩ := h'
  · exact .inl ⟨h1.trans h3, h2.trans h4⟩
  · exact .inr ⟨h1.trans h3, h2.trans h4⟩
  · exact .inr ⟨h1.trans h4, h2.trans h3⟩
  · exact .inl ⟨h1.trans h4, h2.trans h3⟩

/-! ### The group of an edge -/

/-- The edges after an edge that are parallel to it. -/
def parallelsAfter (g : Graph) (e : ℕ) : List ℕ :=
  (List.range' (e + 1) (g.edgeCount - (e + 1))).filter (g.isParallel e)

/-- An edge before the edge is parallel to it. -/
def hasParallelBefore (g : Graph) (e : ℕ) : Bool := (List.range e).any fun d => g.isParallel d e

/-- The group whose first edge is the given one, if there is such a group. -/
def group? (g : Graph) (e : ℕ) : Option ParallelGroup :=
  if g.hasParallelBefore e || (g.parallelsAfter e).isEmpty then none
  else some ⟨e, g.parallelsAfter e⟩

theorem mem_parallelsAfter :
    d ∈ g.parallelsAfter e ↔ d < g.edgeCount ∧ e < d ∧ g.isParallel e d = true := by
  rw [parallelsAfter, List.mem_filter, List.mem_range'_1, ← and_assoc]
  exact and_congr_left fun _ => by omega

theorem hasParallelBefore_iff :
    g.hasParallelBefore e = true ↔ ∃ d < e, g.isParallel d e = true := by
  simp [hasParallelBefore]

/-! ### The sweep -/

section

variable {marks : List Bool} {others ds : List ℕ}

theorem length_foldl_joinGroup :
    (ds.foldl (g.joinGroup e) (marks, others)).1.length = marks.length := by
  induction ds generalizing marks others with
  | nil => rfl
  | cons d ds ih =>
    rw [List.foldl_cons, joinGroup]
    split
    · rw [ih, List.length_set]
    · exact ih

theorem getD_set (hd : d < marks.length) :
    (marks.set d true).getD c false = true ↔ c = d ∨ marks.getD c false = true := by
  simp only [List.getD_eq_getElem?_getD, List.getElem?_set]
  split
  · simp_all
  · rename_i hne
    simp [Ne.symm hne]

/-- Edges that an edge takes into its group are marked, those that it passes are left alone. -/
theorem marks_foldl_joinGroup (hds : ∀ d ∈ ds, d < marks.length) :
    (ds.foldl (g.joinGroup e) (marks, others)).1.getD c false = true ↔
      marks.getD c false = true ∨ c ∈ ds ∧ g.isParallel e c = true := by
  induction ds generalizing marks others with
  | nil => simp
  | cons d ds ih =>
    obtain ⟨hd, hds⟩ := List.forall_mem_cons.1 hds
    rw [List.foldl_cons, joinGroup]
    split
    · rename_i hjoin
      simp only [Bool.and_eq_true, Bool.not_eq_true'] at hjoin
      rw [ih (by simpa using hds), getD_set hd, List.mem_cons]
      constructor
      · rintro ((rfl | hc) | ⟨hc, hparallel⟩)
        · exact .inr ⟨.inl rfl, hjoin.2⟩
        · exact .inl hc
        · exact .inr ⟨.inr hc, hparallel⟩
      · rintro (hc | ⟨rfl | hc, hparallel⟩)
        · exact .inl (.inr hc)
        · exact .inl (.inl rfl)
        · exact .inr ⟨hc, hparallel⟩
    · rename_i hpass
      rw [ih hds, List.mem_cons]
      constructor
      · rintro (hc | ⟨hc, hparallel⟩)
        · exact .inl hc
        · exact .inr ⟨.inr hc, hparallel⟩
      · rintro (hc | ⟨rfl | hc, hparallel⟩)
        · exact .inl hc
        · rw [hparallel, Bool.and_true, Bool.not_eq_true', Bool.not_eq_false] at hpass
          exact .inl hpass
        · exact .inr ⟨hc, hparallel⟩

/-- An edge takes those edges into its group that are free and parallel to it. -/
theorem others_foldl_joinGroup (hnodup : ds.Nodup) (hds : ∀ d ∈ ds, d < marks.length) :
    (ds.foldl (g.joinGroup e) (marks, others)).2 =
      others ++ ds.filter fun d => !marks.getD d false && g.isParallel e d := by
  induction ds generalizing marks others with
  | nil => simp
  | cons d ds ih =>
    obtain ⟨hnew, hnodup⟩ := List.nodup_cons.1 hnodup
    obtain ⟨hd, hds⟩ := List.forall_mem_cons.1 hds
    rw [List.foldl_cons, joinGroup]
    split
    · rename_i hjoin
      have hlater : ∀ c ∈ ds, (marks.set d true).getD c false = marks.getD c false := by
        intro c hc
        rw [Bool.eq_iff_iff, getD_set hd]
        exact or_iff_right fun heq => hnew (heq ▸ hc)
      rw [ih hnodup (by simpa using hds), List.filter_cons, if_pos hjoin, List.append_assoc,
        List.singleton_append]
      refine congrArg (fun es => others ++ d :: es) (List.filter_congr fun c hc => ?_)
      rw [hlater c hc]
    · rename_i hpass
      rw [ih hnodup hds, List.filter_cons, if_neg hpass]

end

/-- The edges before a place are swept: marked are the edges to which one of them is parallel, and
the groups are those whose first edge is one of them. -/
structure IsSwept (g : Graph) (e : ℕ) (s : List Bool × List ParallelGroup) : Prop where
  length : s.1.length = g.edgeCount
  marks : ∀ d < g.edgeCount, s.1.getD d false = true ↔ ∃ c < e, g.isParallel c d = true
  groups : s.2 = (List.range e).filterMap g.group?

theorem isSwept_zero : g.IsSwept 0 (List.replicate g.edgeCount false, []) where
  length := List.length_replicate
  marks d hd := by simp [List.getD_eq_getElem?_getD, hd]
  groups := rfl

theorem exists_lt_succ_isParallel :
    (∃ c < e + 1, g.isParallel c d = true) ↔
      (∃ c < e, g.isParallel c d = true) ∨ g.isParallel e d = true := by
  simp only [Nat.lt_succ_iff_lt_or_eq, or_and_right, exists_or, exists_eq_left]

theorem filterMap_group?_succ :
    (List.range (e + 1)).filterMap g.group? =
      (List.range e).filterMap g.group? ++ (g.group? e).toList := by
  rw [List.range_succ, List.filterMap_append, List.filterMap_cons, List.filterMap_nil]
  cases g.group? e <;> rfl

/-- An edge that is parallel to one before it opens no group. -/
theorem IsSwept.pass {s : List Bool × List ParallelGroup} (h : g.IsSwept e s)
    (hmarked : ∃ c < e, g.isParallel c e = true) : g.IsSwept (e + 1) s where
  length := h.length
  marks d hd := by
    rw [h.marks d hd, exists_lt_succ_isParallel]
    refine (or_iff_left_of_imp fun hed => ?_).symm
    obtain ⟨c, hc, hce⟩ := hmarked
    exact ⟨c, hc, isParallel_trans hce hed⟩
  groups := by
    have hnone : g.group? e = none := by
      rw [group?, hasParallelBefore_iff.2 hmarked, Bool.true_or, if_pos rfl]
    rw [filterMap_group?_succ, hnone, Option.toList_none, List.append_nil, h.groups]

section

variable {s : List Bool × List ParallelGroup} (h : g.IsSwept e s) (he : e < g.edgeCount)

include h

theorem IsSwept.lt_length_set :
    ∀ d ∈ List.range' (e + 1) (g.edgeCount - (e + 1)), d < (s.1.set e true).length := by
  intro d hd
  rw [List.mem_range'_1] at hd
  rw [List.length_set, h.length]
  omega

include he

/-- What is free and parallel to a free edge is all that is parallel to it. -/
theorem IsSwept.filter_free (hfree : ¬∃ c < e, g.isParallel c e = true) :
    (List.range' (e + 1) (g.edgeCount - (e + 1))).filter
      (fun d => !(s.1.set e true).getD d false && g.isParallel e d) = g.parallelsAfter e := by
  refine List.filter_congr fun d hd => ?_
  rw [List.mem_range'_1] at hd
  cases hparallel : g.isParallel e d with
  | false => rw [Bool.and_false]
  | true =>
    -- What marked the edge would be parallel to the free one.
    rw [Bool.and_true, Bool.not_eq_true', ← Bool.not_eq_true, getD_set (h.length ▸ he),
      h.marks d (by omega)]
    rintro (heq | ⟨c, hc, hcd⟩)
    · omega
    · exact hfree ⟨c, hc, isParallel_trans hcd (isParallel_symm hparallel)⟩

/-- An edge marks itself and the edges after it that are parallel to it. Those before it mark
themselves. -/
theorem IsSwept.marks_foldl (hd : d < g.edgeCount) (others : List ℕ) :
    ((List.range' (e + 1) (g.edgeCount - (e + 1))).foldl (g.joinGroup e)
      (s.1.set e true, others)).1.getD d false = true ↔
        ∃ c < e + 1, g.isParallel c d = true := by
  rw [marks_foldl_joinGroup h.lt_length_set, getD_set (h.length ▸ he), h.marks d hd,
    List.mem_range'_1, exists_lt_succ_isParallel]
  constructor
  · rintro ((rfl | hbefore) | ⟨-, hparallel⟩)
    · exact .inr isParallel_self
    · exact .inl hbefore
    · exact .inr hparallel
  · rintro (hbefore | hparallel)
    · exact .inl (.inr hbefore)
    · obtain hlt | rfl | hgt := Nat.lt_trichotomy d e
      · exact .inl (.inr ⟨d, hlt, isParallel_self⟩)
      · exact .inl (.inl rfl)
      · exact .inr ⟨by omega, hparallel⟩

/-- An edge that is parallel to none before it takes in all that are parallel to it. -/
theorem IsSwept.openGroup : g.IsSwept (e + 1) (g.openGroup s e) := by
  unfold Graph.openGroup
  split
  · rename_i hmarked
    exact h.pass ((h.marks e he).1 hmarked)
  · rename_i hfree
    rw [h.marks e he] at hfree
    have hbefore : g.hasParallelBefore e = false := by
      rw [← Bool.not_eq_true, hasParallelBefore_iff]
      exact hfree
    refine ⟨?_, fun d hd => h.marks_foldl he hd [], ?_⟩
    · dsimp only
      rw [length_foldl_joinGroup, List.length_set, h.length]
    · dsimp only
      rw [others_foldl_joinGroup List.nodup_range' h.lt_length_set, List.nil_append,
        h.filter_free he hfree, filterMap_group?_succ, ← h.groups, group?, hbefore, Bool.false_or]
      split <;> simp_all

end

theorem isSwept_foldl (he : e ≤ g.edgeCount) :
    g.IsSwept e ((List.range e).foldl g.openGroup (List.replicate g.edgeCount false, [])) := by
  induction e with
  | zero => exact isSwept_zero
  | succ e ih =>
    rw [List.range_succ, List.foldl_append, List.foldl_cons, List.foldl_nil]
    exact (ih (Nat.le_of_succ_le he)).openGroup he

/-- The groups are those of the edges that are the first of several parallel ones. -/
theorem parallelGroups_eq : g.parallelGroups = (List.range g.edgeCount).filterMap g.group? :=
  (isSwept_foldl le_rfl).groups

/-! ### The groups -/

theorem mem_parallelGroups {p : ParallelGroup} :
    p ∈ g.parallelGroups ↔ p.representative < g.edgeCount ∧
      (∀ d < p.representative, g.isParallel d p.representative = false) ∧
      p.others = g.parallelsAfter p.representative ∧ p.others ≠ [] := by
  obtain ⟨r, others⟩ := p
  simp only [parallelGroups_eq, group?, hasParallelBefore, List.mem_filterMap, List.mem_range,
    Option.ite_none_left_eq_some, Bool.or_eq_true, List.any_eq_true, List.isEmpty_iff, not_or,
    not_exists, not_and, Bool.not_eq_true, Option.some.injEq, ParallelGroup.mk.injEq]
  constructor
  · rintro ⟨e, he, ⟨hbefore, hne⟩, rfl, rfl⟩
    exact ⟨he, hbefore, rfl, hne⟩
  · rintro ⟨hr, hbefore, rfl, hne⟩
    exact ⟨r, hr, ⟨hbefore, hne⟩, rfl, rfl⟩

theorem isParallel_of_mem_others {p : ParallelGroup} (hp : p ∈ g.parallelGroups)
    (hd : d ∈ p.others) : p.representative < g.edgeCount ∧ d < g.edgeCount ∧
      g.isParallel p.representative d = true := by
  obtain ⟨hr, -, hothers, -⟩ := mem_parallelGroups.1 hp
  rw [hothers] at hd
  obtain ⟨hlt, -, hparallel⟩ := mem_parallelsAfter.1 hd
  exact ⟨hr, hlt, hparallel⟩

/-- Parallel edges are in one group. -/
theorem exists_group (hde : d < e) (he : e < g.edgeCount) (h : g.isParallel d e = true) :
    ∃ p ∈ g.parallelGroups, (d = p.representative ∨ d ∈ p.others) ∧ e ∈ p.others := by
  -- The representative is the first edge that is parallel to them.
  have hex : ∃ r, g.isParallel r d = true := ⟨d, isParallel_self⟩
  obtain ⟨r, hr, hmin⟩ : ∃ r, g.isParallel r d = true ∧ ∀ k < r, g.isParallel k d = false :=
    ⟨Nat.find hex, Nat.find_spec hex, fun k hk => Bool.not_eq_true _ ▸ Nat.find_min hex hk⟩
  have hrd : r ≤ d := by
    by_contra hlt
    have hself : g.isParallel d d = true := isParallel_self
    simp [hmin d (not_le.1 hlt)] at hself
  have hemem : e ∈ g.parallelsAfter r :=
    mem_parallelsAfter.2 ⟨he, hrd.trans_lt hde, isParallel_trans hr h⟩
  have hfirst : ∀ k < r, g.isParallel k r = false := by
    intro k hk
    rw [← Bool.not_eq_true]
    intro hkr
    have hkd := isParallel_trans hkr hr
    rw [hmin k hk] at hkd
    cases hkd
  refine ⟨⟨r, g.parallelsAfter r⟩, mem_parallelGroups.2 ⟨?_, hfirst, rfl, ?_⟩, ?_, hemem⟩
  · exact hrd.trans_lt (hde.trans he)
  · exact List.ne_nil_of_mem hemem
  · obtain rfl | hlt := hrd.eq_or_lt
    · exact .inl rfl
    · exact .inr (mem_parallelsAfter.2 ⟨hde.trans he, hlt, hr⟩)

theorem isParallel_of_mem_members (hp : p ∈ g.parallelGroups) (hd : d ∈ p.members) :
    d < g.edgeCount ∧ g.isParallel p.representative d = true := by
  obtain rfl | hd := List.mem_cons.1 hd
  · exact ⟨(mem_parallelGroups.1 hp).1, isParallel_self⟩
  · exact (isParallel_of_mem_others hp hd).2

theorem isParallel_of_mem_group (hp : p ∈ g.parallelGroups) (hd : d ∈ p.members)
    (he : e ∈ p.members) : g.isParallel d e = true :=
  isParallel_trans (isParallel_symm (isParallel_of_mem_members hp hd).2)
    (isParallel_of_mem_members hp he).2

/-- Two parallel edges are in one group. -/
theorem exists_members (hd : d < g.edgeCount) (he : e < g.edgeCount) (hne : d ≠ e)
    (h : g.isParallel d e = true) : ∃ p ∈ g.parallelGroups, d ∈ p.members ∧ e ∈ p.members := by
  obtain hlt | hlt := Nat.lt_or_gt_of_ne hne
  · obtain ⟨p, hp, hpd, hpe⟩ := exists_group hlt he h
    exact ⟨p, hp, List.mem_cons.2 hpd, List.mem_cons_of_mem _ hpe⟩
  · obtain ⟨p, hp, hpe, hpd⟩ := exists_group hlt hd (isParallel_symm h)
    exact ⟨p, hp, List.mem_cons_of_mem _ hpd, List.mem_cons.2 hpe⟩

/-- The members of a group are listed in the order of the edges. -/
theorem pairwise_members (hp : p ∈ g.parallelGroups) : p.members.Pairwise (· < ·) := by
  obtain ⟨-, -, hothers, -⟩ := mem_parallelGroups.1 hp
  rw [ParallelGroup.members, hothers]
  exact List.pairwise_cons.2
    ⟨fun d hd => (mem_parallelsAfter.1 hd).2.1, List.Pairwise.filter _ List.pairwise_lt_range'⟩

theorem nodup_members (hp : p ∈ g.parallelGroups) : p.members.Nodup :=
  (pairwise_members hp).imp Nat.ne_of_lt

/-- The groups are listed by their first edges. -/
theorem pairwise_parallelGroups :
    g.parallelGroups.Pairwise fun p q => p.representative < q.representative := by
  rw [parallelGroups_eq, List.pairwise_filterMap]
  refine List.pairwise_lt_range.imp fun hlt p hp q hq => ?_
  simp only [group?, Option.ite_none_left_eq_some, Option.some.injEq] at hp hq
  obtain ⟨-, rfl⟩ := hp
  obtain ⟨-, rfl⟩ := hq
  exact hlt

/-- An edge is in one group only. -/
theorem disjoint_members (hp : p ∈ g.parallelGroups) (hq : q ∈ g.parallelGroups)
    (hlt : p.representative < q.representative) : p.members.Disjoint q.members := by
  intro d hpd hqd
  have hpq := isParallel_trans (isParallel_of_mem_members hp hpd).2
    (isParallel_symm (isParallel_of_mem_members hq hqd).2)
  exact Bool.false_ne_true (((mem_parallelGroups.1 hq).2.1 _ hlt).symm.trans hpq)

/-- An edge is in a group exactly when it is parallel to its representative. -/
theorem mem_members_iff (hp : p ∈ g.parallelGroups) :
    d ∈ p.members ↔ d < g.edgeCount ∧ g.isParallel p.representative d = true := by
  refine ⟨isParallel_of_mem_members hp, fun ⟨hd, h⟩ => ?_⟩
  obtain ⟨-, hfirst, hothers, -⟩ := mem_parallelGroups.1 hp
  rw [ParallelGroup.members, hothers, List.mem_cons, mem_parallelsAfter]
  obtain hlt | rfl | hgt := Nat.lt_trichotomy d p.representative
  · exact absurd (isParallel_symm h) (by simp [hfirst d hlt])
  · exact .inl rfl
  · exact .inr ⟨hd, hgt, h⟩

end Graph

namespace Topology

variable {t : Topology} {i j : ℕ}

/-! ### Groups by the nodes of the edges -/

/-- The names of the two nodes of an edge, in no order. -/
def pairAt (t : Topology) (i : ℕ) : Sym2 String :=
  s((t.edge i).first.name, (t.edge i).second.name)

theorem IsRegistered.isParallel_iff_pairAt (h : t.IsRegistered) (hi : i < t.edges.length)
    (hj : j < t.edges.length) : t.graph.isParallel i j = true ↔ t.pairAt i = t.pairAt j := by
  rw [h.isParallel_graph hi hj, Edge.isParallelTo_iff, pairAt, pairAt, Sym2.eq_iff]
  exact or_congr_right ⟨fun h => ⟨h.first, h.second⟩, fun h => ⟨h.1, h.2⟩⟩

/-- Two edges are members of one group exactly when they join the same two nodes, in either
direction. The groups have no edge in common and are listed by their representatives. A group has
more than one member; its members are all edges between the nodes of the representative, which is
the first of them, and they are listed in the order of the edges. -/
theorem IsRegistered.parallelGroups_are_classes (h : t.IsRegistered) :
    (∀ i < t.edges.length, ∀ j < t.edges.length, i ≠ j →
      (t.pairAt i = t.pairAt j ↔ ∃ p ∈ t.graph.parallelGroups, i ∈ p.members ∧ j ∈ p.members)) ∧
    t.graph.parallelGroups.Pairwise
      (fun p q => p.representative < q.representative ∧ p.members.Disjoint q.members) ∧
    ∀ p ∈ t.graph.parallelGroups, p.others ≠ [] ∧ p.members.Pairwise (· < ·) ∧
      ∀ i, i ∈ p.members ↔ i < t.edges.length ∧ t.pairAt i = t.pairAt p.representative := by
  refine ⟨fun i hi j hj hne => ?_, ?_, fun p hp => ?_⟩
  · rw [← h.isParallel_iff_pairAt hi hj]
    rw [← edgeCount_graph] at hi hj
    exact ⟨Graph.exists_members hi hj hne,
      fun ⟨p, hp, hip, hjp⟩ => Graph.isParallel_of_mem_group hp hip hjp⟩
  · exact Graph.pairwise_parallelGroups.imp_of_mem fun hp hq hlt =>
      ⟨hlt, Graph.disjoint_members hp hq hlt⟩
  · obtain ⟨hr, -, -, hothers⟩ := Graph.mem_parallelGroups.1 hp
    refine ⟨hothers, Graph.pairwise_members hp, fun i => ?_⟩
    rw [Graph.mem_members_iff hp, edgeCount_graph]
    rw [edgeCount_graph] at hr
    refine and_congr_right fun hi => ?_
    rw [h.isParallel_iff_pairAt hr hi, eq_comm]

/-- Three edges between two nodes, one of them reversed, a pair of self-loops among them, and an
edge on its own. -/
theorem parallelGroups_are_classes_loops :
    let a : Node := ⟨"a", false⟩
    let b : Node := ⟨"b", false⟩
    let c : Node := ⟨"c", false⟩
    let t := (((((empty.addEdge ⟨a, b, "R0"⟩).addEdge ⟨c, c, "X0"⟩).addEdge
      ⟨b, a, "R1"⟩).addEdge ⟨b, c, "R2"⟩).addEdge ⟨c, c, "X1"⟩).addEdge ⟨a, b, "R3"⟩
    t.IsRegistered ∧ t.graph.parallelGroups.map (·.members) = [[0, 2, 5], [1, 4]] ∧
    (∀ i < t.edges.length, ∀ j < t.edges.length, i ≠ j →
      (t.pairAt i = t.pairAt j ↔ ∃ p ∈ t.graph.parallelGroups, i ∈ p.members ∧ j ∈ p.members)) ∧
    t.graph.parallelGroups.Pairwise
      (fun p q => p.representative < q.representative ∧ p.members.Disjoint q.members) ∧
    ∀ p ∈ t.graph.parallelGroups, p.others ≠ [] ∧ p.members.Pairwise (· < ·) ∧
      ∀ i, i ∈ p.members ↔ i < t.edges.length ∧ t.pairAt i = t.pairAt p.representative := by
  intro a b c t
  have ht : t.IsRegistered := .addEdge _ (.addEdge _ (.addEdge _ (.addEdge _ (.addEdge _
    (.addEdge _ .empty)))))
  exact ⟨ht, by decide +kernel, ht.parallelGroups_are_classes⟩

end Topology

end Kirchhoff
