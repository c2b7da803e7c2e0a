import Mathlib.Algebra.Field.Rat
import Mathlib.Combinatorics.SimpleGraph.Connectivity.Connected
import Mathlib.LinearAlgebra.FiniteDimensional.Lemmas
import Mathlib.Tactic.Ring
import Kirchhoff.Network.Forest

/-!
# What a spanning forest spans

Edges are `Independent` when any potentials across them come from potentials of their nodes, so
that no edge closes a loop with others. A forest only ever takes an edge that leads from a node
that is ground or reached to one that is not reached (`Forest.GrowsTo`). Such an edge has an end of
its own, so that the edges of a forest are independent (`Forest.IsGrown.take`).

Independent edges leave the potentials of the nodes free in as many dimensions as they are fewer
than the nodes (`length_add_finrank_ker`). When one dimension is left, they join all nodes, since
the nodes that hang together with a given one could otherwise be raised alone
(`reachable_of_length`). Conversely, edges that join all nodes leave one (`length_of_reachable`).
-/

namespace Kirchhoff

namespace Graph

/-! ### Potentials of nodes -/

/-- The potential across an edge, for given potentials of the nodes. -/
def difference (g : Graph) (φ : ℕ → Rat) (e : ℕ) : Rat := φ (g.second e) - φ (g.first e)

/-- Any potentials across the edges come from potentials of the nodes. -/
def Independent (g : Graph) (es : List ℕ) : Prop :=
  ∀ P : ℕ → Rat, ∃ φ, ∀ e ∈ es, P e = g.difference φ e

/-- The nodes of every edge are listed. -/
def IsClosed (g : Graph) : Prop :=
  ∀ e < g.edgeCount, g.first e < g.nodeCount ∧ g.second e < g.nodeCount

variable {g : Graph} {es : List ℕ} {e : ℕ}

theorem difference_update {φ : ℕ → Rat} {n : ℕ} {x : Rat} (hfirst : g.first e ≠ n)
    (hsecond : g.second e ≠ n) :
    g.difference (Function.update φ n x) e = g.difference φ e := by
  rw [difference, difference, Function.update_of_ne hfirst, Function.update_of_ne hsecond]

/-- An edge with an end of its own may be added. -/
theorem Independent.append {n : ℕ} (h : g.Independent es) (hloop : g.first e ≠ g.second e)
    (hn : g.first e = n ∨ g.second e = n) (hnew : ∀ d ∈ es, g.first d ≠ n ∧ g.second d ≠ n) :
    g.Independent (es ++ [e]) := by
  intro P
  obtain ⟨φ, hφ⟩ := h P
  have hadd (x : Rat) (hx : P e = g.difference (Function.update φ n x) e) :
      ∃ φ, ∀ d ∈ es ++ [e], P d = g.difference φ d := by
    refine ⟨Function.update φ n x, fun d hd => ?_⟩
    obtain hd | hd := List.mem_append.1 hd
    · rw [difference_update (hnew d hd).1 (hnew d hd).2]
      exact hφ d hd
    · rwa [List.mem_singleton.1 hd]
  obtain rfl | rfl := hn
  · refine hadd (φ (g.second e) - P e) ?_
    rw [difference, Function.update_self, Function.update_of_ne hloop.symm]
    ring
  · refine hadd (φ (g.first e) + P e) ?_
    rw [difference, Function.update_self, Function.update_of_ne hloop]
    ring

end Graph

/-! ### Growing a forest -/

namespace Forest

variable {g : Graph} {f f' : Forest} {e m n : ℕ}

theorem mem_reach : m ∈ (f.reach n).nodes ↔ m = n ∨ m ∈ f.nodes := by
  unfold reach
  split
  · rename_i h
    have hn : n ∈ f.nodes := by simpa using h
    exact ⟨.inr, fun h => h.elim (fun h => h ▸ hn) id⟩
  · simp [or_comm]

theorem mem_take : m ∈ (f.take g e).nodes ↔ m = g.second e ∨ m = g.first e ∨ m ∈ f.nodes := by
  rw [take, mem_reach, mem_reach]

theorem edges_take : (f.take g e).edges = f.edges ++ [e] := by
  unfold take reach
  dsimp only
  split <;> split <;> rfl

theorem isPrefix_reach : f.nodes <+: (f.reach n).nodes := by
  unfold reach
  split
  · exact List.prefix_refl _
  · exact List.prefix_append _ _

theorem isPrefix_take : f.nodes <+: (f.take g e).nodes :=
  List.IsPrefix.trans (isPrefix_reach (f := { f with edges := f.edges ++ [e] })) isPrefix_reach

/-- The edge leads from a node that is ground or reached to one that is not reached. -/
structure Admits (g : Graph) (f : Forest) (e : ℕ) : Prop where
  lt_edgeCount : e < g.edgeCount
  proper : g.first e ≠ g.second e
  rooted : ∃ n, (g.first e = n ∨ g.second e = n) ∧ (g.isGround n = true ∨ n ∈ f.nodes)
  leads : ¬ (g.first e ∈ f.nodes ∧ g.second e ∈ f.nodes)

/-- The forest becomes another one by taking such edges. -/
def GrowsTo (g : Graph) : Forest → Forest → Prop :=
  Relation.ReflTransGen fun f f' => ∃ e, f.Admits g e ∧ f' = f.take g e

theorem growsTo_anchorStep (he : e < g.edgeCount) : GrowsTo g f (f.anchorStep g e) := by
  unfold anchorStep
  split
  · rename_i hmay
    simp only [mayAnchor, Graph.isSelfLoop, Bool.and_eq_true, Bool.or_eq_true, Bool.not_eq_true',
      beq_eq_false_iff_ne, Bool.and_eq_false_iff, List.contains_eq_mem, decide_eq_false_iff_not]
      at hmay
    obtain ⟨⟨⟨hproper, hground⟩, hleads⟩, -⟩ := hmay
    refine .single ⟨e, ⟨he, hproper, ?_, fun hboth => ?_⟩, rfl⟩
    · obtain hfirst | hsecond := hground
      · exact ⟨_, .inl rfl, .inl hfirst⟩
      · exact ⟨_, .inr rfl, .inl hsecond⟩
    · exact hleads.elim (· hboth.1) (· hboth.2)
  · exact .refl

theorem growsTo_growStep (hn : n ∈ f.nodes) (he : e < g.edgeCount) :
    GrowsTo g f (f.growStep g n e) := by
  unfold growStep
  split
  · rename_i hmay
    simp only [mayGrow, Bool.and_eq_true, Bool.or_eq_true, beq_iff_eq, Bool.not_eq_true',
      List.contains_eq_mem, decide_eq_false_iff_not] at hmay
    obtain ⟨rfl, hnew⟩ | ⟨rfl, hnew⟩ := hmay.2
    · exact .single ⟨e, ⟨he, fun heq => hnew (heq ▸ hn), ⟨_, .inl rfl, .inr hn⟩,
        fun hboth => hnew hboth.2⟩, rfl⟩
    · exact .single ⟨e, ⟨he, fun heq => hnew (heq ▸ hn), ⟨_, .inr rfl, .inr hn⟩,
        fun hboth => hnew hboth.1⟩, rfl⟩
  · exact .refl

/-- A node that is reached stays reached, at its place in the order. -/
theorem GrowsTo.isPrefix_nodes (h : GrowsTo g f f') : f.nodes <+: f'.nodes := by
  induction h with
  | refl => exact List.prefix_refl _
  | tail _ htake ih =>
    obtain ⟨e, -, rfl⟩ := htake
    exact ih.trans isPrefix_take

theorem growsTo_foldl {step : Forest → ℕ → Forest} {es : List ℕ}
    (h : ∀ f', GrowsTo g f f' → ∀ e ∈ es, GrowsTo g f' (step f' e)) :
    GrowsTo g f (es.foldl step f) :=
  List.foldlRecOn _ _ .refl fun f' hf' e he => hf'.trans (h f' hf' e he)

theorem growsTo_anchored (g : Graph) : GrowsTo g {} (anchored g) :=
  growsTo_foldl fun _ _ _ he => growsTo_anchorStep (List.mem_range.1 he)

/-- The visited node stays reached, so that it is never the new end of an edge. -/
theorem growsTo_foldl_growStep (hn : n ∈ f.nodes) {es : List ℕ} (hes : ∀ e ∈ es, e < g.edgeCount) :
    GrowsTo g f (es.foldl (growStep g n) f) :=
  growsTo_foldl fun _ hf' e he => growsTo_growStep (hf'.isPrefix_nodes.subset hn) (hes e he)

theorem growsTo_visit (hn : n ∈ f.nodes) : GrowsTo g f (f.visit g n) :=
  growsTo_foldl_growStep hn fun _ he => List.mem_range.1 (List.mem_filter.1 he).1

theorem growsTo_visitAt (place : ℕ) : GrowsTo g f (f.visitAt g place) := by
  unfold visitAt
  split
  · rename_i n hn
    exact growsTo_visit (List.mem_of_getElem? hn)
  · exact .refl

/-- Building the spanning forest takes edges from nodes that are ground or reached to others. -/
theorem growsTo_forest (g : Graph) : GrowsTo g {} g.forest :=
  (growsTo_anchored g).trans (growsTo_foldl fun _ _ place _ => growsTo_visitAt place)

/-! ### What growing keeps -/

/-- The edges of a forest are independent, taken once, and both of their nodes are reached. -/
structure IsGrown (g : Graph) (f : Forest) : Prop where
  independent : g.Independent f.edges
  nodup : f.edges.Nodup
  lt_edgeCount : ∀ e ∈ f.edges, e < g.edgeCount
  reached : ∀ e ∈ f.edges, g.first e ∈ f.nodes ∧ g.second e ∈ f.nodes

theorem isGrown_empty : IsGrown g {} where
  independent := fun _ => ⟨0, by simp⟩
  nodup := List.nodup_nil
  lt_edgeCount := by simp
  reached := by simp

/-- An edge with an end that is not reached may be taken. -/
theorem IsGrown.take (h : f.IsGrown g) (he : f.Admits g e) : (f.take g e).IsGrown g := by
  obtain ⟨n, hn, hnmem⟩ : ∃ n, (g.first e = n ∨ g.second e = n) ∧ n ∉ f.nodes := by
    by_cases hfirst : g.first e ∈ f.nodes
    · exact ⟨_, .inr rfl, fun hsecond => he.leads ⟨hfirst, hsecond⟩⟩
    · exact ⟨_, .inl rfl, hfirst⟩
  have havoid : ∀ d ∈ f.edges, g.first d ≠ n ∧ g.second d ≠ n := fun d hd =>
    ⟨fun hdn => hnmem (hdn ▸ (h.reached d hd).1), fun hdn => hnmem (hdn ▸ (h.reached d hd).2)⟩
  refine ⟨?_, ?_, ?_, ?_⟩
  · rw [edges_take]
    exact h.independent.append he.proper hn havoid
  · rw [edges_take, List.nodup_append]
    refine ⟨h.nodup, List.nodup_singleton e, fun d hd d' hd' => ?_⟩
    rw [List.mem_singleton.1 hd']
    rintro rfl
    exact hn.elim (havoid d hd).1 (havoid d hd).2
  · rw [edges_take]
    intro d hd
    obtain hd | hd := List.mem_append.1 hd
    · exact h.lt_edgeCount d hd
    · exact List.mem_singleton.1 hd ▸ he.lt_edgeCount
  · rw [edges_take]
    intro d hd
    rw [mem_take, mem_take]
    obtain hd | hd := List.mem_append.1 hd
    · exact ⟨.inr (.inr (h.reached d hd).1), .inr (.inr (h.reached d hd).2)⟩
    · rw [List.mem_singleton.1 hd]
      exact ⟨.inr (.inl rfl), .inl rfl⟩

theorem GrowsTo.isGrown (h : GrowsTo g f f') (hf : f.IsGrown g) : f'.IsGrown g := by
  induction h with
  | refl => exact hf
  | tail _ htake ih =>
    obtain ⟨e, he, rfl⟩ := htake
    exact ih.take he

/-- The spanning forest of a circuit closes no loop. -/
theorem isGrown_forest (g : Graph) : g.forest.IsGrown g := (growsTo_forest g).isGrown isGrown_empty

end Forest

/-! ### Joined nodes -/

theorem reachable_of_rel {α : Type} {r : α → α → Prop} {a b : α} (h : r a b) :
    (SimpleGraph.fromRel r).Reachable a b := by
  by_cases heq : a = b
  · rw [heq]
  · exact SimpleGraph.Adj.reachable ⟨heq, .inl h⟩

theorem reachable_induction {α : Type} {r : α → α → Prop} {motive : α → Prop} {a b : α}
    (h : (SimpleGraph.fromRel r).Reachable a b) (hr : ∀ x y, r x y → (motive x ↔ motive y))
    (ha : motive a) : motive b := by
  rw [SimpleGraph.reachable_iff_reflTransGen] at h
  induction h with
  | refl => exact ha
  | tail _ hadj ih =>
    obtain ⟨-, hxy | hyx⟩ := hadj
    · exact (hr _ _ hxy).1 ih
    · exact (hr _ _ hyx).2 ih

namespace Graph

variable {g : Graph} {es : List ℕ} {e m n : ℕ}

/-- The nodes with an edge of a list between them. -/
def joining (g : Graph) (es : List ℕ) : SimpleGraph ℕ :=
  .fromRel fun m n => ∃ e ∈ es, g.first e = m ∧ g.second e = n

theorem reachable_of_mem (he : e ∈ es) : (g.joining es).Reachable (g.first e) (g.second e) :=
  reachable_of_rel ⟨e, he, rfl, rfl⟩

/-- What the two nodes of every edge share, all nodes that are joined share. -/
theorem joined_induction {motive : ℕ → Prop} (h : (g.joining es).Reachable m n)
    (hedge : ∀ e ∈ es, motive (g.first e) ↔ motive (g.second e)) (hm : motive m) : motive n :=
  reachable_induction h (fun _ _ ⟨e, he, hfirst, hsecond⟩ => hfirst ▸ hsecond ▸ hedge e he) hm

theorem reachable_mono {es' : List ℕ} (hes : es ⊆ es') (h : (g.joining es).Reachable m n) :
    (g.joining es').Reachable m n :=
  joined_induction (motive := (g.joining es').Reachable m) h
    (fun _ he => ⟨fun hm => hm.trans (reachable_of_mem (hes he)),
      fun hm => hm.trans (reachable_of_mem (hes he)).symm⟩) .rfl

/-- The node of a number, which is listed. -/
def toNode (N : ℕ) [NeZero N] (n : ℕ) : Fin N := Fin.ofNat N n

theorem toNode_val {N : ℕ} [NeZero N] (h : n < N) : (toNode N n).val = n := Nat.mod_eq_of_lt h

/-- The potentials across edges, as a linear map of the potentials of the nodes. -/
def coboundary (g : Graph) (N : ℕ) [NeZero N] (es : List ℕ) :
    (Fin N → Rat) →ₗ[Rat] (Fin es.length → Rat) where
  toFun φ i := φ (toNode N (g.second es[i])) - φ (toNode N (g.first es[i]))
  map_add' φ ψ := funext fun i => add_sub_add_comm _ _ _ _
  map_smul' c φ := funext fun i => (mul_sub c _ _).symm

theorem coboundary_apply (N : ℕ) [NeZero N] (φ : Fin N → Rat) (i : Fin es.length) :
    g.coboundary N es φ i = φ (toNode N (g.second es[i])) - φ (toNode N (g.first es[i])) := rfl

theorem range_coboundary {N : ℕ} [NeZero N] (h : g.Independent es) (hnodup : es.Nodup)
    (hlt : ∀ e ∈ es, g.first e < N ∧ g.second e < N) :
    LinearMap.range (g.coboundary N es) = ⊤ := by
  refine LinearMap.range_eq_top.2 fun y => ?_
  obtain ⟨φ, hφ⟩ := h fun e => if he : e ∈ es then y ⟨es.idxOf e, List.idxOf_lt_length_of_mem he⟩
    else 0
  refine ⟨fun n => φ n, funext fun i => ?_⟩
  have hmem : es[i] ∈ es := List.getElem_mem _
  have hi := hφ es[i] hmem
  rw [dif_pos hmem] at hi
  rw [coboundary_apply, toNode_val (hlt _ hmem).1, toNode_val (hlt _ hmem).2]
  refine hi.symm.trans (congrArg y (Fin.ext ?_))
  exact hnodup.idxOf_getElem i i.2

/-- Raising all nodes alike changes no potential across an edge. -/
theorem coboundary_all {N : ℕ} [NeZero N] : g.coboundary N es (fun _ => 1) = 0 :=
  funext fun _ => sub_self _

open Classical in
/-- Raising the nodes that hang together with one of them changes no potential across an edge. -/
theorem coboundary_component {N : ℕ} [NeZero N] (hlt : ∀ e ∈ es, g.first e < N ∧ g.second e < N) :
    g.coboundary N es (fun n => if (g.joining es).Reachable m n then 1 else 0) = 0 := by
  funext i
  have hmem : es[i] ∈ es := List.getElem_mem _
  have hstep := reachable_of_mem (g := g) hmem
  have hiff : (g.joining es).Reachable m (g.second es[i]) ↔
      (g.joining es).Reachable m (g.first es[i]) :=
    ⟨fun h => h.trans hstep.symm, fun h => h.trans hstep⟩
  rw [coboundary_apply, toNode_val (hlt _ hmem).1, toNode_val (hlt _ hmem).2, if_congr hiff rfl rfl,
    sub_self]
  rfl

/-- Independent edges leave the potentials of the nodes free in as many dimensions as they are
fewer than the nodes. -/
theorem length_add_finrank_ker {N : ℕ} [NeZero N] (h : g.Independent es) (hnodup : es.Nodup)
    (hlt : ∀ e ∈ es, g.first e < N ∧ g.second e < N) :
    es.length + Module.finrank Rat (LinearMap.ker (g.coboundary N es)) = N := by
  have hrank := (g.coboundary N es).finrank_range_add_finrank_ker
  rwa [range_coboundary h hnodup hlt, finrank_top, Module.finrank_fin_fun, Module.finrank_fin_fun]
    at hrank

open Classical in
/-- Independent edges, one less than there are nodes, join all nodes. -/
theorem reachable_of_length {N : ℕ} (h : g.Independent es) (hnodup : es.Nodup)
    (hlt : ∀ e ∈ es, g.first e < N ∧ g.second e < N) (hlength : es.length = N - 1)
    (hm : m < N) (hn : n < N) : (g.joining es).Reachable m n := by
  have : NeZero N := ⟨by omega⟩
  have hker : Module.finrank Rat (LinearMap.ker (g.coboundary N es)) = 1 := by
    have hrank := length_add_finrank_ker h hnodup hlt
    omega
  -- The kernel has one dimension, and both ways to raise nodes lie in it.
  let all : LinearMap.ker (g.coboundary N es) := ⟨_, LinearMap.mem_ker.2 coboundary_all⟩
  let component : LinearMap.ker (g.coboundary N es) :=
    ⟨_, LinearMap.mem_ker.2 (coboundary_component (m := m) hlt)⟩
  have hall : all ≠ 0 := fun h0 => one_ne_zero (congrFun (congrArg Subtype.val h0) (toNode N m))
  obtain ⟨c, hc⟩ := (finrank_eq_one_iff_of_nonzero' all hall).1 hker component
  have hvalue (k : ℕ) (hk : k < N) :
      c = if (g.joining es).Reachable m k then 1 else 0 := by
    simpa [all, component, toNode_val hk] using congrFun (congrArg Subtype.val hc) (toNode N k)
  by_contra hnot
  have hone := hvalue m hm
  rw [if_pos (SimpleGraph.Reachable.refl m), hvalue n hn, if_neg hnot] at hone
  exact zero_ne_one hone

/-- Independent edges that join all nodes are one less than there are nodes. -/
theorem length_of_reachable {N : ℕ} (h : g.Independent es) (hnodup : es.Nodup)
    (hlt : ∀ e ∈ es, g.first e < N ∧ g.second e < N) (hN : N ≠ 0)
    (hjoined : ∀ n < N, (g.joining es).Reachable 0 n) : es.length = N - 1 := by
  have : NeZero N := ⟨hN⟩
  -- Potentials that differ along no edge are those of the first node.
  have hconstant : ∀ φ ∈ LinearMap.ker (g.coboundary N es), ∀ n, φ n = φ (toNode N 0) := by
    intro φ hφ n
    have hedge : ∀ e ∈ es, φ (toNode N (g.first e)) = φ (toNode N 0) ↔
        φ (toNode N (g.second e)) = φ (toNode N 0) := by
      intro e he
      obtain ⟨i, hi, rfl⟩ := List.getElem_of_mem he
      have hzero := congrFun (LinearMap.mem_ker.1 hφ) ⟨i, hi⟩
      rw [coboundary_apply, Pi.zero_apply, sub_eq_zero] at hzero
      exact Eq.congr_left hzero.symm
    have hn := joined_induction (motive := fun k => φ (toNode N k) = φ (toNode N 0))
      (hjoined n n.isLt) hedge rfl
    rwa [show toNode N n = n from Fin.ext (toNode_val n.isLt)] at hn
  let all : LinearMap.ker (g.coboundary N es) := ⟨_, LinearMap.mem_ker.2 coboundary_all⟩
  have hall : all ≠ 0 := fun h0 => one_ne_zero (congrFun (congrArg Subtype.val h0) (toNode N 0))
  have hker : Module.finrank Rat (LinearMap.ker (g.coboundary N es)) = 1 :=
    (finrank_eq_one_iff_of_nonzero' all hall).2 fun φ => ⟨φ.1 (toNode N 0), Subtype.ext <|
      funext fun n => by simp [all, hconstant φ.1 φ.2 n]⟩
  have hrank := length_add_finrank_ker h hnodup hlt
  omega

end Graph

end Kirchhoff
