import Kirchhoff.Proofs.Network.Cycle

/-!
# Paths along edges

A `Leg` is an edge walked in one of its directions, and `Graph.Traverses` says that legs follow one
another from a node to another. A path passes no node twice; edges are acyclic when no legs of
different ones lead back to where they began.

Potentials that come from nodes add up to the same along all legs between two nodes
(`Traverses.sum_rise`). With independent edges, one volt across an edge therefore tells whether legs
take it: legs from a node to another that take the edge once cannot be replaced by others that do
not (`Traverses.mem_of_independent`). Independent edges are acyclic (`Independent.acyclic`), and a
path along them is the only one between its ends (`IsPath.mem_edges_iff`).
-/

namespace Kirchhoff

/-- An edge, walked in its direction or against it. -/
structure Leg where
  edge : ℕ
  isAlong : Bool
deriving DecidableEq

namespace Leg

variable {g : Graph} {s : Leg}

/-- The node that the leg leaves. -/
def source (g : Graph) (s : Leg) : ℕ := if s.isAlong then g.first s.edge else g.second s.edge

/-- The node that the leg enters. -/
def target (g : Graph) (s : Leg) : ℕ := if s.isAlong then g.second s.edge else g.first s.edge

/-- The same edge, walked the other way. -/
def reverse (s : Leg) : Leg := ⟨s.edge, !s.isAlong⟩

/-- What the potential rises by along the leg, for given potentials across the edges. -/
def rise (P : ℕ → Rat) (s : Leg) : Rat := if s.isAlong then P s.edge else -P s.edge

theorem source_reverse : s.reverse.source g = s.target g := by
  obtain ⟨e, _ | _⟩ := s <;> rfl

theorem target_reverse : s.reverse.target g = s.source g := by
  obtain ⟨e, _ | _⟩ := s <;> rfl

theorem joins : g.Joins s.edge (s.source g) (s.target g) := by
  obtain ⟨e, _ | _⟩ := s
  · exact .inr ⟨rfl, rfl⟩
  · exact .inl ⟨rfl, rfl⟩

/-- Legs of one edge end at the same node, or one ends where the other begins. -/
theorem target_eq_or {s' : Leg} (h : s'.edge = s.edge) :
    s'.target g = s.target g ∨ s'.target g = s.source g := by
  obtain ⟨e, b⟩ := s
  obtain ⟨e', b'⟩ := s'
  obtain rfl : e' = e := h
  cases b <;> cases b' <;> simp [target, source]

theorem rise_eq_difference {P φ : ℕ → Rat} (h : P s.edge = g.difference φ s.edge) :
    s.rise P = φ (s.target g) - φ (s.source g) := by
  obtain ⟨e, _ | _⟩ := s
  · exact (congrArg Neg.neg h).trans (neg_sub _ _)
  · exact h

end Leg

namespace Graph

/-- The legs lead from a node to another, each from the node where the one before it ends. -/
def Traverses (g : Graph) : (m : ℕ) → (legs : List Leg) → (n : ℕ) → Prop
  | m, [], n => m = n
  | m, s :: legs, n => s.source g = m ∧ g.Traverses (s.target g) legs n

/-- The legs lead along edges of a list from a node to another and pass no node twice. -/
structure IsPath (g : Graph) (es : List ℕ) (m : ℕ) (legs : List Leg) (n : ℕ) : Prop where
  traverses : g.Traverses m legs n
  mem : ∀ s ∈ legs, s.edge ∈ es
  nodup : (m :: legs.map (·.target g)).Nodup

/-- No legs of different edges lead back to where they begin. -/
def Acyclic (g : Graph) (es : List ℕ) : Prop :=
  ∀ n legs, g.Traverses n legs n → (∀ s ∈ legs, s.edge ∈ es) → (legs.map (·.edge)).Nodup →
    legs = []

variable {g : Graph} {es : List ℕ} {e m n k : ℕ} {s : Leg} {legs legs' : List Leg}

/-! ### Legs that follow one another -/

namespace Traverses

theorem append (h : g.Traverses m legs k) (h' : g.Traverses k legs' n) :
    g.Traverses m (legs ++ legs') n := by
  induction legs generalizing m with
  | nil => exact (show m = k from h) ▸ h'
  | cons s legs ih => exact ⟨h.1, ih h.2⟩

theorem exists_of_append (h : g.Traverses m (legs ++ legs') n) :
    ∃ k, g.Traverses m legs k ∧ g.Traverses k legs' n := by
  induction legs generalizing m with
  | nil => exact ⟨m, rfl, h⟩
  | cons s legs ih =>
    obtain ⟨k, hk, hk'⟩ := ih h.2
    exact ⟨k, ⟨h.1, hk⟩, hk'⟩

theorem reverse (h : g.Traverses m legs n) : g.Traverses n (legs.reverse.map Leg.reverse) m := by
  induction legs generalizing m with
  | nil => exact Eq.symm h
  | cons s legs ih =>
    rw [List.reverse_cons, List.map_append]
    exact (ih h.2).append ⟨Leg.source_reverse, Leg.target_reverse.trans h.1⟩

/-- The nodes that are left, and the last one, are the first one and those that are entered. -/
theorem sources_append (h : g.Traverses m legs n) :
    legs.map (·.source g) ++ [n] = m :: legs.map (·.target g) := by
  induction legs generalizing m with
  | nil => exact congrArg (fun k => [k]) (Eq.symm h)
  | cons s legs ih => rw [List.map_cons, List.cons_append, ih h.2, h.1, List.map_cons]

end Traverses

/-! ### Paths -/

namespace IsPath

theorem reverse (h : g.IsPath es m legs n) : g.IsPath es n (legs.reverse.map Leg.reverse) m where
  traverses := h.traverses.reverse
  mem := by
    intro s' hs'
    obtain ⟨s, hs, rfl⟩ := List.mem_map.1 hs'
    exact h.mem s (List.mem_reverse.1 hs)
  nodup := by
    have hsources : legs.map ((·.target g) ∘ Leg.reverse) = legs.map (·.source g) :=
      List.map_congr_left fun _ _ => Leg.target_reverse
    have hnodup := h.nodup
    rw [← h.traverses.sources_append, ← List.nodup_reverse, List.reverse_append] at hnodup
    rwa [List.map_map, List.map_reverse, hsources]

theorem tail (h : g.IsPath es m (s :: legs) n) : g.IsPath es (s.target g) legs n :=
  ⟨h.traverses.2, fun s' hs' => h.mem s' (List.mem_cons_of_mem _ hs'),
    (List.nodup_cons.1 h.nodup).2⟩

/-- A path takes no edge twice. -/
theorem nodup_edges (h : g.IsPath es m legs n) : (legs.map (·.edge)).Nodup := by
  induction legs generalizing m with
  | nil => exact List.nodup_nil
  | cons s legs ih =>
    refine List.nodup_cons.2 ⟨fun hmem => ?_, ih h.tail⟩
    -- The same edge would end once more at one of the nodes of this leg.
    obtain ⟨s', hs', hedge⟩ := List.mem_map.1 hmem
    have htarget : s'.target g ∈ legs.map (·.target g) := List.mem_map_of_mem hs'
    obtain heq | heq := Leg.target_eq_or (g := g) hedge
    · exact (List.nodup_cons.1 h.tail.nodup).1 (heq ▸ htarget)
    · refine (List.nodup_cons.1 h.nodup).1 (List.mem_cons_of_mem _ ?_)
      exact h.traverses.1 ▸ heq ▸ htarget

/-- A path is a path in the graph of the nodes that the edges join. -/
theorem exists_walk (h : g.IsPath es m legs n) :
    ∃ p : (g.joining es).Walk m n, p.IsPath ∧ p.length = legs.length := by
  have hsupport : ∃ p : (g.joining es).Walk m n, p.support = m :: legs.map (·.target g) := by
    induction legs generalizing m with
    | nil =>
      obtain rfl : m = n := h.traverses
      exact ⟨.nil, rfl⟩
    | cons s legs ih =>
      obtain ⟨p, hp⟩ := ih h.tail
      obtain rfl := h.traverses.1
      have hne : s.source g ≠ s.target g := fun heq =>
        (List.nodup_cons.1 h.nodup).1 (by simp [heq])
      have hadj : (g.joining es).Adj (s.source g) (s.target g) := by
        refine ⟨hne, ?_⟩
        have hmem := h.mem s List.mem_cons_self
        obtain hends | hends := s.joins (g := g)
        · exact .inl ⟨s.edge, hmem, hends⟩
        · exact .inr ⟨s.edge, hmem, hends⟩
      exact ⟨.cons hadj p, by rw [SimpleGraph.Walk.support_cons, hp, List.map_cons]⟩
  obtain ⟨p, hp⟩ := hsupport
  have hlength := congrArg List.length hp
  rw [SimpleGraph.Walk.length_support] at hlength
  refine ⟨p, p.isPath_def.2 (hp ▸ h.nodup), ?_⟩
  simpa using hlength

end IsPath

/-! ### Potentials along legs -/

/-- Potentials that come from nodes add up to the difference between the ends. -/
theorem Traverses.sum_rise {P φ : ℕ → Rat} (h : g.Traverses m legs n)
    (hP : ∀ s ∈ legs, P s.edge = g.difference φ s.edge) :
    (legs.map (Leg.rise P)).sum = φ n - φ m := by
  induction legs generalizing m with
  | nil => rw [show m = n from h, sub_self]; rfl
  | cons s legs ih =>
    rw [List.map_cons, List.sum_cons, ih h.2 fun s' hs' => hP s' (List.mem_cons_of_mem _ hs'),
      Leg.rise_eq_difference (hP s List.mem_cons_self), h.1]
    ring

theorem sum_rise_single_of_notMem (h : e ∉ legs.map (·.edge)) :
    (legs.map (Leg.rise (Pi.single e 1))).sum = 0 := by
  refine List.sum_eq_zero fun x hx => ?_
  obtain ⟨s, hs, rfl⟩ := List.mem_map.1 hx
  have hne : s.edge ≠ e := fun heq => h (List.mem_map.2 ⟨s, hs, heq⟩)
  rw [Leg.rise, Pi.single_eq_of_ne hne, neg_zero, ite_self]

/-- One volt across an edge counts once along legs that take the edge once. -/
theorem sum_rise_single_ne_zero (hnodup : (legs.map (·.edge)).Nodup) (h : e ∈ legs.map (·.edge)) :
    (legs.map (Leg.rise (Pi.single e 1))).sum ≠ 0 := by
  induction legs with
  | nil => cases h
  | cons s legs ih =>
    obtain ⟨hs, hnodup⟩ := List.nodup_cons.1 hnodup
    rw [List.map_cons, List.sum_cons]
    obtain rfl | h := List.mem_cons.1 h
    · rw [sum_rise_single_of_notMem hs, Leg.rise, Pi.single_eq_same, add_zero]
      split <;> norm_num
    · have hne : s.edge ≠ e := fun heq => hs (show s.edge ∈ _ from heq ▸ h)
      rw [Leg.rise, Pi.single_eq_of_ne hne, neg_zero, ite_self, zero_add]
      exact ih hnodup h

/-- Legs along independent edges that take an edge once cannot do without it. -/
theorem Traverses.mem_of_independent (hindependent : g.Independent es)
    (h : g.Traverses m legs n) (hmem : ∀ s ∈ legs, s.edge ∈ es)
    (hnodup : (legs.map (·.edge)).Nodup) (h' : g.Traverses m legs' n)
    (hmem' : ∀ s ∈ legs', s.edge ∈ es) (he : e ∈ legs.map (·.edge)) :
    e ∈ legs'.map (·.edge) := by
  by_contra hnot
  obtain ⟨φ, hφ⟩ := hindependent (Pi.single e 1)
  have hone := h.sum_rise fun s hs => hφ s.edge (hmem s hs)
  have hnone := h'.sum_rise fun s hs => hφ s.edge (hmem' s hs)
  rw [← hnone, sum_rise_single_of_notMem hnot] at hone
  exact sum_rise_single_ne_zero hnodup he hone

/-- **Independent edges form no cycle.** -/
theorem Independent.acyclic (h : g.Independent es) : g.Acyclic es := by
  intro n legs htraverses hmem hnodup
  by_contra hne
  obtain ⟨s, hs⟩ := List.exists_mem_of_ne_nil _ hne
  have hnil : g.Traverses n [] n := rfl
  have hs' := htraverses.mem_of_independent h hmem hnodup hnil (by simp) (List.mem_map_of_mem hs)
  cases hs'

/-- A path along independent edges takes the edges that any other one between its ends takes. -/
theorem IsPath.mem_edges_iff (hindependent : g.Independent es) (h : g.IsPath es m legs n)
    (h' : g.IsPath es m legs' n) : e ∈ legs.map (·.edge) ↔ e ∈ legs'.map (·.edge) :=
  ⟨h.traverses.mem_of_independent hindependent h.mem h.nodup_edges h'.traverses h'.mem,
    h'.traverses.mem_of_independent hindependent h'.mem h'.nodup_edges h.traverses h.mem⟩

end Graph

end Kirchhoff
