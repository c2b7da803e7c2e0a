import Kirchhoff.Proofs.Network.Coverage
import Kirchhoff.Proofs.Network.Counting

/-!
# Fundamental loops

The loop that is found for an edge outside the forest is the fundamental one. Its walk passes no
node twice and takes no edge twice, and it comes back to the second node of the edge, where it
began. The edge is therefore its first leg or its last one: walked against its direction it is the
first, walked along it the last. The other legs are the path of the forest between the two nodes
of the edge (`exists_path_of_loop?`).

Conversely, a path of the forest between the nodes of the edge is closed by it, unless the path is a
single edge, to which the edge outside is then parallel (`loop?_isSome_of_isPath`).

The search needs no more depth than there are nodes (`closeLoop?_depth`).
-/

namespace Kirchhoff

deriving instance DecidableEq for Loop

/-! ### Loops of legs -/

/-- The edges that are walked in their direction. -/
def Leg.edgesAlong (legs : List Leg) : List ℕ := (legs.filter (·.isAlong)).map (·.edge)

/-- The edges that are walked against their direction. -/
def Leg.edgesAgainst (legs : List Leg) : List ℕ := (legs.filter (!·.isAlong)).map (·.edge)

namespace Loop

variable {l : Loop} {e : ℕ} {legs : List Leg}

/-- The loop that legs lead through, listed from their end. -/
def ofLegs (legs : List Leg) : Loop :=
  ⟨(Leg.edgesAlong legs).reverse, (Leg.edgesAgainst legs).reverse⟩

theorem ofLegs_along : ofLegs (⟨e, true⟩ :: legs) = (ofLegs legs).along e := by
  simp [ofLegs, along, Leg.edgesAlong, Leg.edgesAgainst]

theorem ofLegs_against : ofLegs (⟨e, false⟩ :: legs) = (ofLegs legs).against e := by
  simp [ofLegs, against, Leg.edgesAlong, Leg.edgesAgainst]

theorem perm_edges_along : (l.along e).edges.Perm (e :: l.edges) := by
  rw [edges, along, List.append_assoc]
  exact List.perm_middle

theorem perm_edges_against : (l.against e).edges.Perm (e :: l.edges) := by
  rw [edges, against, ← List.append_assoc]
  exact List.perm_append_singleton e _

/-- The edges of the loop are the edges of the legs. -/
theorem perm_edges_ofLegs (legs : List Leg) : (ofLegs legs).edges.Perm (legs.map (·.edge)) := by
  induction legs with
  | nil => exact .refl []
  | cons s legs ih =>
    obtain ⟨e, _ | _⟩ := s
    · rw [ofLegs_against]
      exact perm_edges_against.trans (ih.cons e)
    · rw [ofLegs_along]
      exact perm_edges_along.trans (ih.cons e)

end Loop

namespace Graph

variable {g : Graph} {allowed passed walked forest : List ℕ} {c n m v depth depth' : ℕ} {l : Loop}
  {legs path : List Leg}

/-! ### The walk of a loop -/

theorem sources_of_cons {k : ℕ} (h : ∀ s ∈ legs, s.source g ∉ k :: passed) :
    k ∉ legs.map (·.source g) ∧ ∀ s ∈ legs, s.source g ∉ passed := by
  refine ⟨fun hmem => ?_, fun s hs hmem => h s hs (List.mem_cons_of_mem _ hmem)⟩
  obtain ⟨s, hs, rfl⟩ := List.mem_map.1 hmem
  exact h s hs List.mem_cons_self

/-- A walk that closes leads along legs that leave no node twice, and none that was passed. -/
theorem Closes.exists_legs (h : g.Closes allowed passed walked n l v) :
    ∃ legs, g.Traverses n legs v ∧ l = .ofLegs legs ∧ (legs.map (·.source g)).Nodup ∧
      ∀ s ∈ legs, s.source g ∉ passed := by
  induction h with
  | stop _ => exact ⟨[], rfl, rfl, List.nodup_nil, by simp⟩
  | @along _ _ e _ _ hfirst _ _ ih =>
    obtain ⟨legs, htraverses, rfl, hnodup, hpassed⟩ := ih
    obtain ⟨hnew, hpassed⟩ := sources_of_cons hpassed
    exact ⟨⟨e, true⟩ :: legs, ⟨rfl, htraverses⟩, Loop.ofLegs_along.symm,
      List.nodup_cons.2 ⟨hnew, hnodup⟩, List.forall_mem_cons.2 ⟨hfirst, hpassed⟩⟩
  | @against _ _ e _ _ hsecond _ _ ih =>
    obtain ⟨legs, htraverses, rfl, hnodup, hpassed⟩ := ih
    obtain ⟨hnew, hpassed⟩ := sources_of_cons hpassed
    exact ⟨⟨e, false⟩ :: legs, ⟨rfl, htraverses⟩, Loop.ofLegs_against.symm,
      List.nodup_cons.2 ⟨hnew, hnodup⟩, List.forall_mem_cons.2 ⟨hsecond, hpassed⟩⟩

/-- A walk that closes takes no edge twice. -/
theorem Closes.nodup_edges (h : g.Closes allowed passed walked n l v) : l.edges.Nodup := by
  induction h with
  | stop _ => exact List.nodup_nil
  | along _ _ h ih =>
    rw [Loop.perm_edges_along.nodup_iff, List.nodup_cons]
    exact ⟨fun hmem => h.not_walked_of_mem _ hmem List.mem_cons_self, ih⟩
  | against _ _ h ih =>
    rw [Loop.perm_edges_against.nodup_iff, List.nodup_cons]
    exact ⟨fun hmem => h.not_walked_of_mem _ hmem List.mem_cons_self, ih⟩

theorem Traverses.start_mem (h : g.Traverses m legs n) (hne : legs ≠ []) :
    m ∈ legs.map (·.source g) := by
  cases legs with
  | nil => exact absurd rfl hne
  | cons s legs => exact h.1 ▸ List.mem_cons_self

theorem isPath_of_sources (h : g.Traverses m legs n) (hmem : ∀ s ∈ legs, s.edge ∈ forest)
    (hnodup : (legs.map (·.source g)).Nodup) (hn : n ∉ legs.map (·.source g)) :
    g.IsPath forest m legs n where
  traverses := h
  mem := hmem
  nodup := by
    rw [← h.sources_append, List.nodup_append]
    refine ⟨hnodup, List.nodup_singleton n, fun k hk k' hk' => ?_⟩
    rw [List.mem_singleton.1 hk']
    exact ne_of_mem_of_not_mem hk hn

/-- Legs that lead through an edge from its second node back to it begin or end with the edge, and
go along a path otherwise. -/
theorem exists_path_of_legs (forest : List ℕ)
    (htraverses : g.Traverses (g.second c) legs (g.second c))
    (hsources : (legs.map (·.source g)).Nodup) (hedges : (legs.map (·.edge)).Nodup)
    (hmem : ∀ s ∈ legs, s.edge = c ∨ s.edge ∈ forest) (hc : c ∈ legs.map (·.edge)) :
    ∃ path, g.IsPath forest (g.first c) path (g.second c) ∧
      (legs.map (·.edge)).Perm (c :: path.map (·.edge)) := by
  obtain ⟨s, hs, rfl⟩ := List.mem_map.1 hc
  obtain ⟨before, after, rfl⟩ := List.append_of_mem hs
  obtain ⟨k, hbefore, rfl, hafter⟩ := htraverses.exists_of_append
  rw [List.map_append, List.map_cons, List.nodup_append, List.nodup_cons] at hsources hedges
  obtain ⟨hbeforeNodup, ⟨hsafter, hafterNodup⟩, hdisjoint⟩ := hsources
  obtain ⟨-, ⟨hcafter, -⟩, hcdisjoint⟩ := hedges
  have hforest {d : Leg} (hd : d ∈ before ∨ d ∈ after) : d.edge ∈ forest := by
    refine (hmem d ?_).resolve_left fun heq => ?_
    · exact List.mem_append.2 (hd.imp_right (List.mem_cons_of_mem _))
    · obtain hd | hd := hd
      · exact hcdisjoint _ (List.mem_map_of_mem hd) _ List.mem_cons_self heq
      · exact hcafter (heq ▸ List.mem_map_of_mem hd)
  have hnotBefore : s.source g ∉ before.map (·.source g) := fun hmem =>
    hdisjoint _ hmem _ List.mem_cons_self rfl
  rw [List.map_append, List.map_cons]
  obtain ⟨e, _ | _⟩ := s
  · -- Against its direction: the walk begins with the edge.
    have hnil : before = [] := by_contra fun hne => hnotBefore (hbefore.start_mem hne)
    subst hnil
    have hpath := isPath_of_sources hafter (fun d hd => hforest (.inr hd)) hafterNodup hsafter
    exact ⟨after, hpath, .refl _⟩
  · -- Along its direction: the walk ends with the edge.
    have hnil : after = [] := by
      by_contra hne
      have hstart : g.second e ∈ after.map (·.source g) := hafter.start_mem hne
      by_cases hnil : before = []
      · subst hnil
        have hloop : g.second e = g.first e := hbefore
        exact hsafter (show g.first e ∈ after.map (·.source g) by rwa [← hloop])
      · exact hdisjoint _ (hbefore.start_mem hnil) _ (List.mem_cons_of_mem _ hstart) rfl
    subst hnil
    have hpath := isPath_of_sources hbefore (fun d hd => hforest (.inl hd)) hbeforeNodup hnotBefore
    refine ⟨_, hpath.reverse, ?_⟩
    have hedges :
        (before.reverse.map Leg.reverse).map (·.edge) = (before.map (·.edge)).reverse := by
      rw [List.map_map, List.map_reverse]
      rfl
    rw [hedges, List.map_nil]
    exact (List.perm_append_singleton e _).trans ((List.reverse_perm _).symm.cons e)

/-- The loop of an edge outside independent edges is closed by a path along them. -/
theorem exists_path_of_loop? (hindependent : g.Independent forest)
    (h : g.loop? forest c = some l) :
    ∃ legs path, g.Traverses (g.second c) legs (g.second c) ∧ l = .ofLegs legs ∧
      g.IsPath forest (g.first c) path (g.second c) ∧
      l.edges.Nodup ∧ l.edges.Perm (c :: path.map (·.edge)) := by
  have hcloses := closes_of_loop? h hindependent
  have hnodup := hcloses.nodup_edges
  have hc := hcloses.mem_edges hindependent List.not_mem_nil
  have hallowed := hcloses.allowed_of_mem
  obtain ⟨legs, htraverses, rfl, hsources, -⟩ := hcloses.exists_legs
  have hperm := Loop.perm_edges_ofLegs legs
  obtain ⟨path, hpath, hedges⟩ := exists_path_of_legs forest htraverses hsources
    (hperm.nodup_iff.1 hnodup)
    (fun s hs => by
      have hmem := hallowed s.edge (hperm.mem_iff.2 (List.mem_map_of_mem hs))
      exact (List.mem_append.1 hmem).symm.imp_left List.mem_singleton.1)
    (hperm.mem_iff.1 hc)
  exact ⟨legs, path, htraverses, rfl, hpath, hnodup, hperm.trans hedges⟩

/-! ### Loops that are found -/

/-- A path along independent edges that is not a single edge has no edge parallel to one between its
ends. -/
theorem IsPath.not_isParallel (hindependent : g.Independent forest)
    (h : g.IsPath forest (g.first c) path (g.second c)) (hlength : path.length ≠ 1) :
    ∀ d ∈ forest, g.isParallel d c = false := by
  intro d hd
  rw [← Bool.not_eq_true, isParallel_iff]
  intro hparallel
  -- The parallel edge alone is such a path too.
  obtain ⟨s, hs, hsource, htarget⟩ :
      ∃ s : Leg, s.edge = d ∧ s.source g = g.first c ∧ s.target g = g.second c := by
    obtain ⟨hfirst, hsecond⟩ | ⟨hfirst, hsecond⟩ := hparallel
    · exact ⟨⟨d, true⟩, rfl, hfirst, hsecond⟩
    · exact ⟨⟨d, false⟩, rfl, hsecond, hfirst⟩
  have hproper : g.first c ≠ g.second c := by
    have := hindependent.acyclic.proper hd
    obtain ⟨hfirst, hsecond⟩ | ⟨hfirst, hsecond⟩ := hparallel
    · rwa [← hfirst, ← hsecond]
    · rw [← hfirst, ← hsecond]
      exact this.symm
  have hsingle : g.IsPath forest (g.first c) [s] (g.second c) :=
    ⟨⟨hsource, htarget⟩, by simpa [hs] using hd, by simpa [htarget] using hproper⟩
  have hperm : (path.map (·.edge)).Perm [s.edge] :=
    (List.perm_ext_iff_of_nodup h.nodup_edges hsingle.nodup_edges).2 fun e =>
      h.mem_edges_iff hindependent hsingle
  exact hlength (by simpa using hperm.length_eq)

/-- A path along independent edges that is not a single edge is closed by an edge outside. -/
theorem loop?_isSome_of_isPath (hclosed : g.IsClosed) (hindependent : g.Independent forest)
    (hforest : ∀ e ∈ forest, e < g.edgeCount) (hc : c < g.edgeCount) (hchord : c ∉ forest)
    (h : g.IsPath forest (g.first c) path (g.second c)) (hlength : path.length ≠ 1) :
    (g.loop? forest c).isSome := by
  have hallowed : ∀ e ∈ forest ++ [c], e < g.edgeCount := fun e he =>
    (List.mem_append.1 he).elim (hforest e) fun he => List.mem_singleton.1 he ▸ hc
  obtain ⟨p, hp, -⟩ := h.reverse.exists_walk
  obtain ⟨l, hl, hsize⟩ := closes_of_isPath [] [] hchord (h.not_isParallel hindependent hlength) p
    rfl hp (by simp) (by simp) (by simp) (by simp)
  have hbound := length_lt_of_isPath (fun e he => hclosed e (hforest e he)) p (hclosed c hc).1 hp
  exact closeLoop?_isSome hallowed hl (by omega)

/-- An edge closes a loop with independent edges exactly when its nodes are the ends of a path along
them that is not a single edge. -/
theorem loop?_isSome_iff_isPath (hclosed : g.IsClosed) (hindependent : g.Independent forest)
    (hforest : ∀ e ∈ forest, e < g.edgeCount) (hc : c < g.edgeCount) (hchord : c ∉ forest) :
    (g.loop? forest c).isSome ↔
      ∃ path, g.IsPath forest (g.first c) path (g.second c) ∧ path.length ≠ 1 := by
  constructor
  · intro h
    obtain ⟨l, hl⟩ := Option.isSome_iff_exists.1 h
    obtain ⟨-, path, -, -, hpath, -, -⟩ := exists_path_of_loop? hindependent hl
    refine ⟨path, hpath, fun hlength => ?_⟩
    -- The only edge of the path would be parallel to the edge outside.
    obtain ⟨s, rfl⟩ := List.length_eq_one_iff.1 hlength
    obtain ⟨hsource, htarget⟩ : s.source g = g.first c ∧ s.target g = g.second c := hpath.traverses
    have hparallel : g.isParallel s.edge c = true := by
      rw [isParallel_iff, ← hsource, ← htarget]
      exact s.joins
    rw [loop?_eq_none hindependent hchord (hpath.mem s List.mem_cons_self) hparallel] at hl
    cases hl
  · rintro ⟨path, hpath, hlength⟩
    exact loop?_isSome_of_isPath hclosed hindependent hforest hc hchord hpath hlength

theorem exists_isPath_iff :
    (∃ path, g.IsPath forest m path n ∧ path.length ≠ 1) ↔
      m = n ∨ m ≠ n ∧ ∃ path, g.IsPath forest m path n ∧ 2 ≤ path.length := by
  constructor
  · rintro ⟨path, hpath, hlength⟩
    by_cases hmn : m = n
    · exact .inl hmn
    · refine .inr ⟨hmn, path, hpath, ?_⟩
      have hne : path.length ≠ 0 := fun hnil => by
        rw [List.length_eq_zero_iff.1 hnil] at hpath
        exact hmn hpath.traverses
      omega
  · rintro (rfl | ⟨-, path, hpath, hlength⟩)
    · exact ⟨[], ⟨rfl, by simp, List.nodup_singleton m⟩, by simp⟩
    · exact ⟨path, hpath, by omega⟩

/-! ### Enough depth -/

/-- The search finds the same with every depth beyond the number of nodes that it has not passed. -/
theorem closeLoop?_depth (hclosed : g.IsClosed) (hnodup : passed.Nodup)
    (hpassed : ∀ k ∈ passed, k < g.nodeCount) (hn : n < g.nodeCount)
    (hdepth : g.nodeCount < passed.length + depth)
    (hdepth' : g.nodeCount < passed.length + depth') :
    g.closeLoop? allowed depth passed walked n = g.closeLoop? allowed depth' passed walked n := by
  have hlength {passed : List ℕ} (hnodup : passed.Nodup) (hpassed : ∀ k ∈ passed, k < g.nodeCount) :
      passed.length ≤ g.nodeCount := by
    simpa using (hnodup.subperm fun k hk => List.mem_range.2 (hpassed k hk)).length_le
  induction depth generalizing depth' passed walked n with
  | zero => exact absurd (hlength hnodup hpassed) (by omega)
  | succ depth ih =>
    obtain ⟨depth', rfl⟩ : ∃ d, depth' = d + 1 :=
      Nat.exists_eq_succ_of_ne_zero fun h0 => absurd (hlength hnodup hpassed) (by omega)
    rw [closeLoop?, closeLoop?]
    split
    · rfl
    · rename_i hnew
      have hnew : n ∉ passed := by simpa using hnew
      have hsearch (e m : ℕ) (hm : m < g.nodeCount) :
          g.closeLoop? allowed depth (n :: passed) (e :: walked) m =
            g.closeLoop? allowed depth' (n :: passed) (e :: walked) m :=
        ih (List.nodup_cons.2 ⟨hnew, hnodup⟩) (List.forall_mem_cons.2 ⟨hn, hpassed⟩) hm
          (by rw [List.length_cons]; omega) (by rw [List.length_cons]; omega)
      rw [← List.head?_filterMap, ← List.head?_filterMap]
      refine congrArg List.head? (List.filterMap_congr fun e he => ?_)
      obtain ⟨hfirst, hsecond⟩ := hclosed e (mem_incident.1 he).1
      simp only [hsearch e _ hfirst, hsearch e _ hsecond]

/-! ### The loop of an edge -/

/-- The loop consists of the edge and the path along the tree between its nodes, each edge once, and
is walked from the second node of the edge back to it. -/
structure IsFundamental (g : Graph) (tree : List ℕ) (c : ℕ) (l : Loop) : Prop where
  disjoint : l.positive.Disjoint l.negative
  nodup_positive : l.positive.Nodup
  nodup_negative : l.negative.Nodup
  exists_path : ∃ path, g.IsPath tree (g.first c) path (g.second c)
  mem_edges_iff : ∀ path, g.IsPath tree (g.first c) path (g.second c) →
    ∀ e, e ∈ l.edges ↔ e = c ∨ e ∈ path.map (·.edge)
  exists_legs : ∃ legs, g.Traverses (g.second c) legs (g.second c) ∧
    l.positive = (Leg.edgesAlong legs).reverse ∧ l.negative = (Leg.edgesAgainst legs).reverse

theorem isFundamental_of_loop? (hindependent : g.Independent forest)
    (h : g.loop? forest c = some l) : g.IsFundamental forest c l := by
  obtain ⟨legs, path, htraverses, rfl, hpath, hnodup, hperm⟩ := exists_path_of_loop? hindependent h
  obtain ⟨hpositive, hnegative, hdisjoint⟩ := List.nodup_append'.1 hnodup
  refine ⟨hdisjoint, hpositive, hnegative, ⟨path, hpath⟩, fun path' hpath' e => ?_,
    legs, htraverses, rfl, rfl⟩
  rw [hperm.mem_iff, List.mem_cons, hpath.mem_edges_iff hindependent hpath']

end Graph

namespace Topology

variable {t : Topology} {c : ℕ}

/-- **The loop that is found for an edge outside the tree is the fundamental one.** A loop is found
exactly when the edge is a self-loop, or its two nodes are joined along the tree by a path of at
least two edges. The loop then consists of the edge and that path, and is walked from the second node
of the edge back to it. The depth of the search does not matter, once it is beyond the number of
nodes. -/
theorem loop?_isFundamental (ht : t.IsRegistered) (hc : c < t.graph.edgeCount)
    (hchord : c ∉ t.graph.forest.edges) :
    let g := t.graph
    let tree := g.forest.edges
    ((g.loop? tree c).isSome ↔ g.first c = g.second c ∨
      g.first c ≠ g.second c ∧
        ∃ path, g.IsPath tree (g.first c) path (g.second c) ∧ 2 ≤ path.length) ∧
    (∀ l, g.loop? tree c = some l → g.IsFundamental tree c l) ∧
    ∀ depth, g.nodeCount < depth →
      g.closeLoop? (tree ++ [c]) depth [] [] (g.second c) = g.loop? tree c := by
  intro g tree
  have hgrown := Forest.isGrown_forest t.graph
  refine ⟨?_, fun l hl => Graph.isFundamental_of_loop? hgrown.independent hl,
    fun depth hdepth => ?_⟩
  · exact (Graph.loop?_isSome_iff_isPath ht.isClosed hgrown.independent hgrown.lt_edgeCount hc
      hchord).trans Graph.exists_isPath_iff
  · exact Graph.closeLoop?_depth ht.isClosed List.nodup_nil (by simp) (ht.isClosed c hc).2
      (by simpa using hdepth) (by simp)

/-- A loop of three edges, two of them walked against their direction. -/
theorem loop?_isFundamental_series :
    let input : Node := ⟨"in", false⟩
    let out : Node := ⟨"out", false⟩
    let gnd := Node.ground "gnd"
    let t := ((empty.addEdge ⟨gnd, input, "V0"⟩).addEdge ⟨input, out, "R0"⟩).addEdge
      ⟨gnd, out, "C0"⟩
    t.IsRegistered ∧ t.graph.forest.edges = [0, 2] ∧ t.graph.loop? [0, 2] 1 = some ⟨[2], [0, 1]⟩ ∧
      t.graph.IsFundamental [0, 2] 1 ⟨[2], [0, 1]⟩ ∧
      ∃ path, t.graph.IsPath [0, 2] 1 path 2 ∧ 2 ≤ path.length := by
  intro input out gnd t
  have ht : t.IsRegistered := .addEdge _ (.addEdge _ (.addEdge _ .empty))
  have htree : t.graph.forest.edges = [0, 2] := by decide +kernel
  have hloop : t.graph.loop? [0, 2] 1 = some ⟨[2], [0, 1]⟩ := by decide +kernel
  have hends : t.graph.first 1 = 1 ∧ t.graph.second 1 = 2 := by decide +kernel
  obtain ⟨hsome, hfundamental, -⟩ :=
    loop?_isFundamental ht (c := 1) (by decide +kernel) (by rw [htree]; decide)
  rw [htree, hloop] at hsome
  rw [htree] at hfundamental
  refine ⟨ht, htree, hloop, hfundamental _ hloop, ?_⟩
  obtain hself | ⟨-, hpath⟩ := hsome.1 rfl
  · rw [hends.1, hends.2] at hself
    cases hself
  · rwa [hends.1, hends.2] at hpath

end Topology

end Kirchhoff
