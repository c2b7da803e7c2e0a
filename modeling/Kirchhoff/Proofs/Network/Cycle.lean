import Mathlib.Combinatorics.SimpleGraph.Paths
import Kirchhoff.Proofs.Network.Forest
import Kirchhoff.Network.Cycle

/-!
# What a loop search finds

`Graph.Closes` is the search without its depth and its order: a walk along allowed edges that
never takes an edge parallel to an earlier one, up to a node passed before. The search finds such
a walk (`closes_of_closeLoop?`), and it finds one if there is one (`closeLoop?_isSome`).

Along a walk, potentials that come from nodes add up to the difference between the ends of the
walk (`Closes.total_eq`). A loop of independent edges therefore cannot exist, and the loop that
an edge closes with a forest contains the edge and comes back to where it began
(`Closes.mem_edges`, `Closes.eq_start`). When the forest joins all nodes, only an edge parallel to
one of the forest closes no loop (`loop?_isSome`).
-/

namespace Kirchhoff

/-! ### Sums along a loop -/

namespace Loop

variable {l : Loop} {d e : ℕ} {P : ℕ → Rat}

/-- The edges of a loop. -/
def edges (l : Loop) : List ℕ := l.positive ++ l.negative

/-- The sum of the potentials along a loop. -/
def total (P : ℕ → Rat) (l : Loop) : Rat := (l.positive.map P).sum - (l.negative.map P).sum

@[simp] theorem mem_edges_empty : ¬ d ∈ edges {} := List.not_mem_nil

@[simp] theorem mem_edges_along : d ∈ (l.along e).edges ↔ d = e ∨ d ∈ l.edges := by
  simp only [edges, along, List.mem_append, List.mem_singleton]
  tauto

@[simp] theorem mem_edges_against : d ∈ (l.against e).edges ↔ d = e ∨ d ∈ l.edges := by
  simp only [edges, against, List.mem_append, List.mem_singleton]
  tauto

@[simp] theorem length_edges_along : (l.along e).edges.length = l.edges.length + 1 := by
  simp only [edges, along, List.length_append, List.length_singleton]
  omega

@[simp] theorem length_edges_against : (l.against e).edges.length = l.edges.length + 1 := by
  simp only [edges, against, List.length_append, List.length_singleton]
  omega

theorem total_empty : total P {} = 0 := sub_self _

theorem total_along : (l.along e).total P = l.total P + P e := by
  simp only [total, along, List.map_append, List.sum_append, List.map_singleton, List.sum_singleton]
  ring

theorem total_against : (l.against e).total P = l.total P - P e := by
  simp only [total, against, List.map_append, List.sum_append, List.map_singleton,
    List.sum_singleton]
  ring

theorem total_add (P Q : ℕ → Rat) : l.total (P + Q) = l.total P + l.total Q := by
  rw [total, total, total, Pi.add_def, List.sum_map_add, List.sum_map_add]
  ring

theorem total_sub (P Q : ℕ → Rat) : l.total (P - Q) = l.total P - l.total Q := by
  rw [eq_sub_iff_add_eq, ← total_add, sub_add_cancel]

theorem total_eq_zero (h : ∀ d ∈ l.edges, P d = 0) : l.total P = 0 := by
  have hzero (es : List ℕ) (hes : ∀ d ∈ es, P d = 0) : (es.map P).sum = 0 :=
    List.sum_eq_zero fun x hx => by
      obtain ⟨d, hd, rfl⟩ := List.mem_map.1 hx
      exact hes d hd
  rw [total, hzero _ fun d hd => h d (List.mem_append_left _ hd),
    hzero _ fun d hd => h d (List.mem_append_right _ hd), sub_zero]

end Loop

namespace Graph

/-! ### Walks that close -/

/-- From the node, after some nodes and edges, the loop leads back to a node passed before, the
last of the names. -/
inductive Closes (g : Graph) (allowed : List ℕ) : List ℕ → List ℕ → ℕ → Loop → ℕ → Prop
  /-- The node was passed before. -/
  | stop {passed walked : List ℕ} {n : ℕ} (h : n ∈ passed) :
      Closes g allowed passed walked n {} n
  /-- The walk goes on along an edge in its direction. -/
  | along {passed walked : List ℕ} {e v : ℕ} {l : Loop} (hfirst : g.first e ∉ passed)
      (hmay : g.mayWalk allowed walked e)
      (h : Closes g allowed (g.first e :: passed) (e :: walked) (g.second e) l v) :
      Closes g allowed passed walked (g.first e) (l.along e) v
  /-- The walk goes on along an edge against its direction. -/
  | against {passed walked : List ℕ} {e v : ℕ} {l : Loop} (hsecond : g.second e ∉ passed)
      (hmay : g.mayWalk allowed walked e)
      (h : Closes g allowed (g.second e :: passed) (e :: walked) (g.first e) l v) :
      Closes g allowed passed walked (g.second e) (l.against e) v

variable {g : Graph} {allowed passed walked forest : List ℕ} {c e n m s v : ℕ} {l : Loop}

theorem mayWalk_iff : g.mayWalk allowed walked e = true ↔
    e ∈ allowed ∧ e ∉ walked ∧ ∀ d ∈ walked, g.isParallel d e = false := by
  simp [mayWalk, and_assoc]

theorem mem_incident : e ∈ g.incident n ↔ e < g.edgeCount ∧ (g.first e = n ∨ g.second e = n) := by
  simp [incident, touches]

/-- What the search finds is a walk that closes. -/
theorem closes_of_closeLoop? {depth : ℕ}
    (h : g.closeLoop? allowed depth passed walked n = some l) :
    ∃ v, g.Closes allowed passed walked n l v := by
  induction depth generalizing passed walked n l with
  | zero => cases h
  | succ depth ih =>
    rw [closeLoop?] at h
    split at h
    · rename_i hn
      cases h
      exact ⟨n, .stop (by simpa using hn)⟩
    · rename_i hn
      have hn : n ∉ passed := by simpa using hn
      obtain ⟨e, he, hstep⟩ := List.exists_of_findSome?_eq_some h
      split at hstep
      · cases hstep
      · rename_i hmay
        have hmay : g.mayWalk allowed walked e := by simpa using hmay
        simp only [Option.orElse_eq_orElse, Option.orElse_eq_or, Option.or_eq_some_iff] at hstep
        obtain hforward | ⟨-, hbackward⟩ := hstep
        · split at hforward
          · rename_i hfirst
            subst hfirst
            obtain ⟨l, hl, rfl⟩ := Option.map_eq_some_iff.1 hforward
            obtain ⟨v, hv⟩ := ih hl
            exact ⟨v, .along hn hmay hv⟩
          · cases hforward
        · split at hbackward
          · rename_i hsecond
            subst hsecond
            obtain ⟨l, hl, rfl⟩ := Option.map_eq_some_iff.1 hbackward
            obtain ⟨v, hv⟩ := ih hl
            exact ⟨v, .against hn hmay hv⟩
          · cases hbackward

/-- The search finds a walk if there is one. -/
theorem closeLoop?_isSome (hallowed : ∀ e ∈ allowed, e < g.edgeCount) {depth : ℕ}
    (h : g.Closes allowed passed walked n l v) (hdepth : l.edges.length < depth) :
    (g.closeLoop? allowed depth passed walked n).isSome := by
  induction h generalizing depth with
  | stop hn =>
    obtain ⟨depth, rfl⟩ := Nat.exists_eq_succ_of_ne_zero (Nat.ne_zero_of_lt hdepth)
    simp [closeLoop?, hn]
  | @along passed walked e v l hfirst hmay h ih =>
    obtain ⟨depth, rfl⟩ := Nat.exists_eq_succ_of_ne_zero (Nat.ne_zero_of_lt hdepth)
    obtain ⟨l', hl'⟩ := Option.isSome_iff_exists.1 (@ih depth (by simpa using hdepth))
    rw [closeLoop?, if_neg (by simpa using hfirst), List.findSome?_isSome_iff]
    refine ⟨e, mem_incident.2 ⟨hallowed e (mayWalk_iff.1 hmay).1, .inl rfl⟩, ?_⟩
    simp [hmay, hl']
  | @against passed walked e v l hsecond hmay h ih =>
    obtain ⟨depth, rfl⟩ := Nat.exists_eq_succ_of_ne_zero (Nat.ne_zero_of_lt hdepth)
    obtain ⟨l', hl'⟩ := Option.isSome_iff_exists.1 (@ih depth (by simpa using hdepth))
    rw [closeLoop?, if_neg (by simpa using hsecond), List.findSome?_isSome_iff]
    refine ⟨e, mem_incident.2 ⟨hallowed e (mayWalk_iff.1 hmay).1, .inr rfl⟩, ?_⟩
    simp [hmay, hl']

/-! ### Potentials along a walk -/

namespace Closes

theorem allowed_of_mem (h : g.Closes allowed passed walked n l v) : ∀ d ∈ l.edges, d ∈ allowed := by
  induction h with
  | stop _ => simp
  | along _ hmay _ ih | against _ hmay _ ih =>
    intro d hd
    simp only [Loop.mem_edges_along, Loop.mem_edges_against] at hd
    obtain rfl | hd := hd
    · exact (mayWalk_iff.1 hmay).1
    · exact ih d hd

theorem not_walked_of_mem (h : g.Closes allowed passed walked n l v) :
    ∀ d ∈ l.edges, d ∉ walked := by
  induction h with
  | stop _ => simp
  | along _ hmay _ ih | against _ hmay _ ih =>
    intro d hd
    simp only [Loop.mem_edges_along, Loop.mem_edges_against] at hd
    obtain rfl | hd := hd
    · exact (mayWalk_iff.1 hmay).2.1
    · exact fun hwalked => ih d hd (List.mem_cons_of_mem _ hwalked)

/-- Potentials that come from nodes add up to the difference between the ends of a walk. -/
theorem total_eq {P φ : ℕ → Rat} (h : g.Closes allowed passed walked n l v)
    (hP : ∀ d ∈ l.edges, P d = g.difference φ d) : l.total P = φ v - φ n := by
  induction h with
  | stop _ => rw [Loop.total_empty, sub_self]
  | along _ _ _ ih =>
    rw [Loop.total_along, ih fun d hd => hP d (by simp [hd]), hP _ (by simp), difference]
    ring
  | against _ _ _ ih =>
    rw [Loop.total_against, ih fun d hd => hP d (by simp [hd]), hP _ (by simp), difference]
    ring

/-- Independent edges have no loop. -/
theorem not_independent (h : g.Closes allowed passed walked n l n) (hn : n ∉ passed)
    (hforest : ∀ d ∈ l.edges, d ∈ forest) : ¬ g.Independent forest := by
  intro hindependent
  -- One volt across the first edge of the loop and none across the others.
  have hone {e : ℕ} {l' : Loop} (hl' : ∀ d ∈ l'.edges, d ∉ e :: walked) :
      l'.total (Pi.single e 1) = 0 :=
    Loop.total_eq_zero fun d hd => Pi.single_eq_of_ne (List.ne_of_not_mem_cons (hl' d hd)) 1
  have hzero (e : ℕ) : l.total (Pi.single e 1) = 0 := by
    obtain ⟨φ, hφ⟩ := hindependent (Pi.single e 1)
    rw [h.total_eq fun d hd => hφ d (hforest d hd), sub_self]
  cases h with
  | stop hn' => exact hn hn'
  | @along _ _ e _ _ _ _ h =>
    have := hzero e
    rw [Loop.total_along, hone h.not_walked_of_mem, Pi.single_eq_same] at this
    norm_num at this
  | @against _ _ e _ _ _ _ h =>
    have := hzero e
    rw [Loop.total_against, hone h.not_walked_of_mem, Pi.single_eq_same] at this
    norm_num at this

/-- A walk does not touch a node passed before, unless it ends there. -/
theorem avoids {x : ℕ} (h : g.Closes allowed passed walked n l v) (hx : x ∈ passed) (hv : v ≠ x) :
    n ≠ x ∧ ∀ d ∈ l.edges, g.first d ≠ x ∧ g.second d ≠ x := by
  induction h with
  | stop _ => exact ⟨hv, by simp⟩
  | @along _ _ e _ _ hfirst _ _ ih =>
    obtain ⟨hnext, hedges⟩ := ih (List.mem_cons_of_mem _ hx) hv
    have hne : g.first e ≠ x := fun heq => hfirst (heq ▸ hx)
    refine ⟨hne, fun d hd => ?_⟩
    obtain rfl | hd := Loop.mem_edges_along.1 hd
    · exact ⟨hne, hnext⟩
    · exact hedges d hd
  | @against _ _ e _ _ hsecond _ _ ih =>
    obtain ⟨hnext, hedges⟩ := ih (List.mem_cons_of_mem _ hx) hv
    have hne : g.second e ≠ x := fun heq => hsecond (heq ▸ hx)
    refine ⟨hne, fun d hd => ?_⟩
    obtain rfl | hd := Loop.mem_edges_against.1 hd
    · exact ⟨hnext, hne⟩
    · exact hedges d hd

theorem mem_passed_of_cons (h : g.Closes (forest ++ [c]) passed walked n l v)
    (hindependent : g.Independent forest) (hn : n ∉ passed) (hc : g.second c ∈ passed)
    (hv : v ∈ n :: passed) : v ∈ passed := by
  obtain rfl | hv := List.mem_cons.1 hv
  · -- The walk from `v` to `v` avoids the node of the edge, and so the edge.
    have havoids := (h.avoids hc (fun heq => hn (heq ▸ hc))).2
    refine absurd hindependent (h.not_independent hn fun d hd => ?_)
    obtain hd' | hd' := List.mem_append.1 (h.allowed_of_mem d hd)
    · exact hd'
    · exact absurd (congrArg g.second (List.mem_singleton.1 hd')) (havoids d hd).2
  · exact hv

/-- With one edge more than an independent list, a walk that passed an end of the edge closes at a
node that it passed before. -/
theorem mem_passed (h : g.Closes (forest ++ [c]) passed walked n l v)
    (hindependent : g.Independent forest) (hc : g.second c ∈ passed) : v ∈ passed := by
  induction h with
  | stop hn => exact hn
  | along hfirst hmay h ih =>
    exact (along hfirst hmay h).mem_passed_of_cons hindependent hfirst hc
      (ih (List.mem_cons_of_mem _ hc))
  | against hsecond hmay h ih =>
    exact (against hsecond hmay h).mem_passed_of_cons hindependent hsecond hc
      (ih (List.mem_cons_of_mem _ hc))

/-- A loop that is looked for from an end of the additional edge comes back to it. -/
theorem eq_start (h : g.Closes (forest ++ [c]) [] [] n l v) (hindependent : g.Independent forest)
    (hn : n = g.second c) : v = n := by
  cases h with
  | stop hn' => cases hn'
  | along _ _ h => exact List.mem_singleton.1 (h.mem_passed hindependent (by simp [hn]))
  | against _ _ h => exact List.mem_singleton.1 (h.mem_passed hindependent (by simp [hn]))

/-- A loop with one edge more than an independent list contains the edge. -/
theorem mem_edges (h : g.Closes (forest ++ [c]) passed walked n l n)
    (hindependent : g.Independent forest) (hn : n ∉ passed) : c ∈ l.edges := by
  by_contra hc
  refine h.not_independent hn (fun d hd => ?_) hindependent
  obtain hd' | hd' := List.mem_append.1 (h.allowed_of_mem d hd)
  · exact hd'
  · exact absurd (List.mem_singleton.1 hd' ▸ hd) hc

/-- Along a loop the potential of one edge counts once, when the other edges have none. -/
theorem total_eq_or {Q : ℕ → Rat} (h : g.Closes allowed passed walked n l v)
    (hQ : ∀ d ∈ allowed, d ≠ c → Q d = 0) (hc : c ∈ l.edges) :
    l.total Q = Q c ∨ l.total Q = -Q c := by
  have hrest {l' : Loop} {passed walked : List ℕ} {n v : ℕ}
      (h : g.Closes allowed passed (c :: walked) n l' v) : l'.total Q = 0 :=
    Loop.total_eq_zero fun d hd =>
      hQ d (h.allowed_of_mem d hd) (List.ne_of_not_mem_cons (h.not_walked_of_mem d hd))
  induction h with
  | stop _ => cases hc
  | @along _ _ e _ _ _ hmay h ih =>
    rw [Loop.total_along]
    by_cases he : e = c
    · subst he
      rw [hrest h, zero_add]
      exact .inl rfl
    · rw [hQ e (mayWalk_iff.1 hmay).1 he, add_zero]
      exact ih ((Loop.mem_edges_along.1 hc).resolve_left (Ne.symm he))
  | @against _ _ e _ _ _ hmay h ih =>
    rw [Loop.total_against]
    by_cases he : e = c
    · subst he
      rw [hrest h, zero_sub]
      exact .inr rfl
    · rw [hQ e (mayWalk_iff.1 hmay).1 he, sub_zero]
      exact ih ((Loop.mem_edges_against.1 hc).resolve_left (Ne.symm he))

end Closes

/-! ### Loops that exist -/

theorem isParallel_iff {d e : ℕ} : g.isParallel d e = true ↔
    g.first d = g.first e ∧ g.second d = g.second e ∨
      g.first d = g.second e ∧ g.second d = g.first e := by
  simp [isParallel]

theorem not_isParallel {d : ℕ} {x : ℕ} (hd : g.first d = x ∨ g.second d = x)
    (hfirst : g.first e ≠ x) (hsecond : g.second e ≠ x) : g.isParallel d e = false := by
  rw [← Bool.not_eq_true, isParallel_iff]
  rintro (⟨h1, h2⟩ | ⟨h1, h2⟩)
  · exact hd.elim (fun h => hfirst (h1 ▸ h)) fun h => hsecond (h2 ▸ h)
  · exact hd.elim (fun h => hsecond (h1 ▸ h)) fun h => hfirst (h2 ▸ h)

/-- The ends of an edge are two nodes, in either order. -/
def Joins (g : Graph) (e m n : ℕ) : Prop :=
  g.first e = m ∧ g.second e = n ∨ g.first e = n ∧ g.second e = m

theorem exists_joins (h : (g.joining forest).Adj m n) : ∃ e ∈ forest, g.Joins e m n := by
  obtain ⟨-, ⟨e, he, hends⟩ | ⟨e, he, hends⟩⟩ := h
  · exact ⟨e, he, .inl hends⟩
  · exact ⟨e, he, .inr hends⟩

theorem Closes.step {k : ℕ} (hn : n ∉ passed) (hmay : g.mayWalk allowed walked e)
    (hjoins : g.Joins e n m)
    (h : ∃ l, g.Closes allowed (n :: passed) (e :: walked) m l v ∧ l.edges.length = k) :
    ∃ l, g.Closes allowed passed walked n l v ∧ l.edges.length = k + 1 := by
  obtain ⟨l, hl, rfl⟩ := h
  obtain ⟨rfl, rfl⟩ | ⟨rfl, rfl⟩ := hjoins
  · exact ⟨l.along e, .along hn hmay hl, Loop.length_edges_along⟩
  · exact ⟨l.against e, .against hn hmay hl, Loop.length_edges_against⟩

/-- A path along the forest to one end of an edge outside goes on along the edge. -/
theorem closes_of_isPath (passed walked : List ℕ) (hc : c ∉ forest)
    (hparallel : ∀ d ∈ forest, g.isParallel d c = false)
    (p : (g.joining forest).Walk n m) (hm : m = g.first c) (hp : p.IsPath)
    (hsupport : ∀ k ∈ p.support, k ∉ passed) (hwalked : ∀ d ∈ walked, d ∈ forest)
    (hpassed : ∀ d ∈ walked, ∃ k ∈ passed, g.first d = k ∨ g.second d = k)
    (hstart : g.second c ∈ n :: passed) :
    ∃ l, g.Closes (forest ++ [c]) passed walked n l (g.second c) ∧
      l.edges.length = p.length + 1 := by
  induction p generalizing passed walked with
  | @nil n =>
    have hn : n ∉ passed := hsupport n (by simp)
    have hmay : g.mayWalk (forest ++ [c]) walked c :=
      mayWalk_iff.2
        ⟨by simp, fun hmem => hc (hwalked c hmem), fun d hd => hparallel d (hwalked d hd)⟩
    exact Closes.step hn hmay (.inl ⟨hm.symm, rfl⟩) ⟨{}, .stop hstart, rfl⟩
  | @cons n k m hadj p ih =>
    obtain ⟨e, he, hjoins⟩ := exists_joins hadj
    obtain ⟨hp, hnp⟩ := (SimpleGraph.Walk.cons_isPath_iff hadj p).1 hp
    have hn : n ∉ passed := hsupport n (by simp)
    have hk : k ∉ passed := hsupport k (by simp)
    -- An edge walked before has an end among the nodes passed; this one has not.
    have hnew : ∀ d ∈ walked, g.isParallel d e = false := by
      intro d hd
      obtain ⟨x, hx, hdx⟩ := hpassed d hd
      have hne : n ≠ x ∧ k ≠ x := ⟨fun heq => hn (heq ▸ hx), fun heq => hk (heq ▸ hx)⟩
      obtain ⟨rfl, rfl⟩ | ⟨rfl, rfl⟩ := hjoins
      · exact not_isParallel hdx hne.1 hne.2
      · exact not_isParallel hdx hne.2 hne.1
    have hself : g.isParallel e e = true := isParallel_iff.2 (.inl ⟨rfl, rfl⟩)
    have hmay : g.mayWalk (forest ++ [c]) walked e := mayWalk_iff.2
      ⟨List.mem_append_left _ he,
        fun hmem => Bool.false_ne_true ((hnew e hmem).symm.trans hself), hnew⟩
    refine Closes.step hn hmay hjoins (ih _ _ hm hp ?_ ?_ ?_ ?_)
    · intro x hx hxn
      obtain rfl | hxn := List.mem_cons.1 hxn
      · exact hnp hx
      · exact hsupport x (by simp [hx]) hxn
    · exact List.forall_mem_cons.2 ⟨he, hwalked⟩
    · refine List.forall_mem_cons.2 ⟨⟨n, List.mem_cons_self, ?_⟩, fun d hd => ?_⟩
      · exact hjoins.imp And.left And.right
      · obtain ⟨x, hx, hdx⟩ := hpassed d hd
        exact ⟨x, List.mem_cons_of_mem _ hx, hdx⟩
    · exact List.mem_cons_of_mem _ hstart

theorem lt_of_mem_support {N : ℕ} (hlt : ∀ e ∈ forest, g.first e < N ∧ g.second e < N)
    (p : (g.joining forest).Walk n m) (hm : m < N) : ∀ k ∈ p.support, k < N := by
  induction p with
  | nil => simpa using hm
  | cons hadj p ih =>
    obtain ⟨e, he, hjoins⟩ := exists_joins hadj
    rw [SimpleGraph.Walk.support_cons]
    refine List.forall_mem_cons.2 ⟨?_, ih hm⟩
    exact hjoins.elim (fun h => h.1 ▸ (hlt e he).1) fun h => h.2 ▸ (hlt e he).2

theorem length_lt_of_isPath {N : ℕ} (hlt : ∀ e ∈ forest, g.first e < N ∧ g.second e < N)
    (p : (g.joining forest).Walk n m) (hm : m < N) (hp : p.IsPath) : p.length < N := by
  have hsubset : p.support.toFinset ⊆ Finset.range N := fun k hk =>
    Finset.mem_range.2 (lt_of_mem_support hlt p hm k (List.mem_toFinset.1 hk))
  have hcard := Finset.card_le_card hsubset
  rw [List.toFinset_card_of_nodup hp.support_nodup, SimpleGraph.Walk.length_support,
    Finset.card_range] at hcard
  omega

/-- A forest that joins all nodes. -/
structure IsSpanning (g : Graph) (forest : List ℕ) : Prop where
  independent : g.Independent forest
  nodup : forest.Nodup
  lt_edgeCount : ∀ e ∈ forest, e < g.edgeCount
  length : forest.length = g.treeSize

/-- The loop of an edge is a walk from its second node back to it. -/
theorem closes_of_loop? (h : g.loop? forest c = some l) (hindependent : g.Independent forest) :
    g.Closes (forest ++ [c]) [] [] (g.second c) l (g.second c) := by
  obtain ⟨v, hv⟩ := closes_of_closeLoop? h
  have heq := hv.eq_start hindependent rfl
  rwa [heq] at hv

/-- Beside a forest that joins all nodes, an edge closes a loop, unless it is parallel to an edge
of the forest. -/
theorem loop?_isSome (hclosed : g.IsClosed) (h : g.IsSpanning forest) (hc : c < g.edgeCount)
    (hforest : c ∉ forest) (hparallel : ∀ d ∈ forest, g.isParallel d c = false) :
    (g.loop? forest c).isSome := by
  have hlt : ∀ e ∈ forest, g.first e < g.nodeCount ∧ g.second e < g.nodeCount := fun e he =>
    hclosed e (h.lt_edgeCount e he)
  have hallowed : ∀ e ∈ forest ++ [c], e < g.edgeCount := fun e he =>
    (List.mem_append.1 he).elim (h.lt_edgeCount e) fun he => List.mem_singleton.1 he ▸ hc
  have hreach := reachable_of_length h.independent h.nodup hlt h.length (hclosed c hc).2
    (hclosed c hc).1
  obtain ⟨p, hp⟩ := hreach.exists_isPath
  obtain ⟨l, hl, hlength⟩ := closes_of_isPath [] [] hforest hparallel p rfl hp
    (by simp) (by simp) (by simp) (by simp)
  refine closeLoop?_isSome hallowed hl ?_
  have := length_lt_of_isPath hlt p (hclosed c hc).1 hp
  omega

end Graph

end Kirchhoff
