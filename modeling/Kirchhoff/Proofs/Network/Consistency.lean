import Kirchhoff.Proofs.Network.Grouping

/-!
# Consistent potentials

Potentials across the edges are `Consistent` when they add up to zero along every loop that was
found and agree within every group of parallel edges. Along the loops this is so whenever the
potentials come from those of the nodes (`total_foundLoop`).

Conversely, when the forest joins all nodes and parallel edges begin at the same node, consistent
potentials come from those of the nodes (`Consistent.exists_difference`). The forest gives the
nodes their potentials; an edge outside it agrees with them because of its loop, or, when it
closes none, because it is parallel to an edge of the forest.
-/

namespace Kirchhoff.Graph

variable {g : Graph} {forest : List ℕ} {P : ℕ → Rat} {c d e : ℕ} {l : Loop}

/-! ### The loops found -/

/-- The loops that the edges outside a forest close. -/
def foundLoops (g : Graph) (forest : List ℕ) : List Loop := (g.loops forest).filterMap (·.2)

theorem mem_chords : c ∈ g.chords forest ↔ c < g.edgeCount ∧ c ∉ forest := by
  simp [chords]

/-- A loop is found for every edge that is no tree edge and has one. -/
theorem mem_foundLoops : l ∈ g.foundLoops forest ↔
    ∃ c, c < g.edgeCount ∧ c ∉ forest ∧ g.loop? forest c = some l := by
  simp [foundLoops, loops, mem_chords, and_assoc]

theorem lt_edgeCount_of_mem_foundLoops (hindependent : g.Independent forest)
    (hforest : ∀ e ∈ forest, e < g.edgeCount) (h : l ∈ g.foundLoops forest) :
    ∀ d ∈ l.edges, d < g.edgeCount := by
  obtain ⟨c, hc, -, hl⟩ := mem_foundLoops.1 h
  intro d hd
  have hallowed := (closes_of_loop? hl hindependent).allowed_of_mem d hd
  obtain hd | hd := List.mem_append.1 hallowed
  · exact hforest d hd
  · exact List.mem_singleton.1 hd ▸ hc

/-- Potentials that come from nodes add up to zero along every loop found. -/
theorem total_foundLoop {φ : ℕ → Rat} (hindependent : g.Independent forest)
    (hforest : ∀ e ∈ forest, e < g.edgeCount) (h : l ∈ g.foundLoops forest)
    (hP : ∀ d < g.edgeCount, P d = g.difference φ d) : l.total P = 0 := by
  have hlt := lt_edgeCount_of_mem_foundLoops hindependent hforest h
  obtain ⟨c, -, -, hl⟩ := mem_foundLoops.1 h
  rw [(closes_of_loop? hl hindependent).total_eq fun d hd => hP d (hlt d hd), sub_self]

/-! ### From consistent potentials to nodes -/

/-- The potentials add up to zero along the loops found, and agree within the groups. -/
structure Consistent (g : Graph) (forest : List ℕ) (P : ℕ → Rat) : Prop where
  loops : ∀ l ∈ g.foundLoops forest, l.total P = 0
  groups : ∀ p ∈ g.parallelGroups, ∀ d ∈ p.others, P p.representative = P d

/-- Parallel edges have equal potentials. -/
theorem Consistent.eq_of_isParallel (h : g.Consistent forest P) (hd : d < g.edgeCount)
    (he : e < g.edgeCount) (hparallel : g.isParallel d e = true) : P d = P e := by
  have hlt {d e : ℕ} (hde : d < e) (he : e < g.edgeCount) (hparallel : g.isParallel d e = true) :
      P d = P e := by
    obtain ⟨p, hp, hpd, hpe⟩ := exists_group hde he hparallel
    rw [← h.groups p hp e hpe]
    obtain rfl | hpd := hpd
    · rfl
    · exact (h.groups p hp d hpd).symm
  obtain hde | rfl | hde := lt_trichotomy d e
  · exact hlt hde he hparallel
  · rfl
  · exact (hlt hde hd (isParallel_symm hparallel)).symm

theorem difference_eq_of_isParallel {φ : ℕ → Rat} (hparallel : g.isParallel d e = true)
    (hfirst : g.first d = g.first e) : g.difference φ d = g.difference φ e := by
  obtain ⟨-, hsecond⟩ | ⟨h1, h2⟩ := isParallel_iff.1 hparallel
  · rw [difference, difference, hfirst, hsecond]
  · rw [difference, difference, h2, ← h1, hfirst]

/-- Consistent potentials come from potentials of the nodes, when the forest joins all nodes and
parallel edges begin at the same node. -/
theorem Consistent.exists_difference (h : g.Consistent forest P) (hclosed : g.IsClosed)
    (hspanning : g.IsSpanning forest)
    (hfirst : ∀ d < g.edgeCount, ∀ e < g.edgeCount, g.isParallel d e = true →
      g.first d = g.first e) :
    ∃ φ, ∀ e < g.edgeCount, P e = g.difference φ e := by
  obtain ⟨φ, hφ⟩ := hspanning.independent P
  refine ⟨φ, fun c hc => ?_⟩
  by_cases hmem : c ∈ forest
  · exact hφ c hmem
  by_cases hparallel : ∃ d ∈ forest, g.isParallel d c = true
  · obtain ⟨d, hd, hdc⟩ := hparallel
    have hdlt := hspanning.lt_edgeCount d hd
    rw [← h.eq_of_isParallel hdlt hc hdc, hφ d hd]
    exact difference_eq_of_isParallel hdc (hfirst d hdlt c hc hdc)
  · have hnone : ∀ d ∈ forest, g.isParallel d c = false := fun d hd =>
      Bool.not_eq_true _ ▸ fun hdc => hparallel ⟨d, hd, hdc⟩
    obtain ⟨l, hl⟩ := Option.isSome_iff_exists.1 (loop?_isSome hclosed hspanning hc hmem hnone)
    have hcloses := closes_of_loop? hl hspanning.independent
    -- What the nodes leave of the potentials is zero on the forest, and adds up to zero.
    have hrest : l.total (P - g.difference φ) = 0 := by
      rw [Loop.total_sub, h.loops l (mem_foundLoops.2 ⟨c, hc, hmem, hl⟩),
        hcloses.total_eq fun _ _ => rfl, sub_self, sub_zero]
    have hzero : ∀ d ∈ forest ++ [c], d ≠ c → (P - g.difference φ) d = 0 := fun d hd hdc => by
      have hd : d ∈ forest := (List.mem_append.1 hd).resolve_right (by simpa using hdc)
      rw [Pi.sub_apply, hφ d hd, sub_self]
    have hedge := hcloses.mem_edges hspanning.independent List.not_mem_nil
    obtain htotal | htotal := hcloses.total_eq_or hzero hedge
    · exact sub_eq_zero.1 (htotal.symm.trans hrest)
    · exact sub_eq_zero.1 (neg_eq_zero.1 (htotal.symm.trans hrest))

end Kirchhoff.Graph
