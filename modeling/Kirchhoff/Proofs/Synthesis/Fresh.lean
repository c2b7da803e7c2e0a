import Mathlib.Order.Bounds.Defs
import Kirchhoff.Proofs.Synthesis.Reached

/-!
# Fresh symbols

Three records decide what a fresh symbol is called: the names that are interned, the labels that
were issued and, for each stem, the next number to try. Every operation on a context keeps them
together: a label that was issued is interned, and so is every label of a stem below the next number
to try (`Context.IsLabelled`). A stem that begins another one needs no care, since this speaks of
labels as texts.

So a label that is not interned is not issued either, and the search for one passes over interned
labels only. It ends at the least number whose label is not interned since the last reset
(`Context.freshSymbol_isLeast`).
-/

namespace Kirchhoff.Context

variable {α : Type} {k k' : Context α} {name stem : String} {n : ℕ}

/-! ### Names, labels and numbers to try -/

/-- The labels that were issued are interned, and so are those below the next number to try. -/
structure IsLabelled (k : Context α) : Prop where
  issued : ∀ label ∈ k.labels.issued, (k.lookup label).isSome
  passed : ∀ stem, ∀ n < k.labels.counter stem, (k.lookup (Labels.label stem n)).isSome

/-- No label has been issued. -/
theorem isLabelled_of_empty (h : k.labels = .empty) : k.IsLabelled := by
  constructor
  · simp [h, Labels.empty]
  · simp [h, Labels.empty, Labels.counter]

theorem Extends.isSome_lookup (h : k.Extends k') (hname : (k.lookup name).isSome) :
    (k'.lookup name).isSome := by
  obtain ⟨s, hs⟩ := Option.isSome_iff_exists.1 hname
  exact Option.isSome_of_eq_some (h.lookup hs)

theorem extends_of_symbols (h : k'.symbols = k.symbols) : k.Extends k' :=
  ⟨h ▸ List.prefix_refl _, h ▸ id⟩

theorem IsLabelled.of_extends (h : k.IsLabelled) (hext : k.Extends k')
    (hlabels : k'.labels = k.labels) : k'.IsLabelled where
  issued label hlabel := hext.isSome_lookup (h.issued label (hlabels ▸ hlabel))
  passed stem n hn := hext.isSome_lookup (h.passed stem n (hlabels ▸ hn))

/-- A label is free exactly when it is not interned. -/
theorem IsLabelled.isFree_iff (h : k.IsLabelled) :
    k.labels.isFree (k.symbols.symbols.map (·.name)) name = true ↔ k.lookup name = none := by
  rw [Labels.isFree_iff, ← lookup_eq_none_iff]
  refine and_iff_right_of_imp fun hnone hissued => ?_
  have hsome := h.issued name hissued
  rw [hnone] at hsome
  cases hsome

/-- The search for a label ends at the least number whose label is not interned. -/
theorem IsLabelled.isLeast (h : k.IsLabelled)
    (hends : Labels.EndsAt (k.labels.isFree (k.symbols.symbols.map (·.name))) stem
      (k.labels.counter stem) n) :
    IsLeast {n | k.lookup (Labels.label stem n) = none} n := by
  refine ⟨h.isFree_iff.1 hends.isFree, fun m hm => ?_⟩
  by_contra hlt
  obtain hbelow | hfrom := Nat.lt_or_ge m (k.labels.counter stem)
  · have hsome := h.passed stem m hbelow
    rw [show k.lookup (Labels.label stem m) = none from hm] at hsome
    cases hsome
  · have hnot := hends.passed hfrom (not_le.1 hlt)
    rw [h.isFree_iff.2 hm] at hnot
    cases hnot

theorem keeps_isLabelled_symbol (name : String) :
    Keeps (α := α) IsLabelled (symbol name) :=
  fun k h => h.of_extends (interns_symbol name k).1 rfl

theorem keeps_isLabelled_freshSymbol (stem : String) :
    Keeps (α := α) IsLabelled (freshSymbol stem) := by
  intro k h
  obtain ⟨n, hends, htext, hissued, hcounter⟩ :=
    Labels.endsAt_fresh k.labels stem (k.symbols.symbols.map (·.name))
  have hext : k.Extends (freshSymbol stem k).2 := (isGrowing_freshSymbol stem k).extends
  have hnew : ((freshSymbol stem k).2.lookup (Labels.label stem n)).isSome := by
    rw [← htext]
    exact Option.isSome_of_eq_some (lookup_symbol _ _)
  constructor
  · intro label hlabel
    obtain rfl | hlabel := List.mem_cons.1 (hissued ▸ hlabel)
    · exact hnew
    · exact hext.isSome_lookup (h.issued label hlabel)
  · intro other m hm
    replace hm : m < if other = stem then n + 1 else k.labels.counter other := hcounter other ▸ hm
    by_cases hother : other = stem
    · -- What is below the number that was found was passed over or is this number.
      subst hother
      rw [if_pos rfl] at hm
      obtain hlt | rfl := Nat.lt_succ_iff_lt_or_eq.1 hm
      · refine hext.isSome_lookup (Option.isSome_iff_ne_none.2 fun hnone => ?_)
        exact absurd ((h.isLeast hends).2 hnone) (not_le.2 hlt)
      · exact hnew
    · rw [if_neg hother] at hm
      exact hext.isSome_lookup (h.passed other m hm)

section

variable [Scalar α]

theorem labels_withTimestep {dt : α} (h : k.withTimestep dt = .ok k') :
    k'.symbols = k.symbols ∧ k'.labels = k.labels := by
  unfold Context.withTimestep at h
  split at h
  · cases h
  · obtain rfl := Except.ok.inj h
    exact ⟨rfl, rfl⟩

theorem IsLabelled.operation (h : k.IsLabelled) (op : Operation α) : (op.run k).IsLabelled := by
  by_cases hop : op = .reset
  · subst hop
    exact isLabelled_of_empty rfl
  · exact Operation.keeps keeps_isLabelled_symbol keeps_isLabelled_freshSymbol
      (fun h hdt => h.of_extends (extends_of_symbols (labels_withTimestep hdt).1)
        (labels_withTimestep hdt).2) hop h

/-- In a context that is reached, the labels and the interned names agree. -/
theorem IsReached.isLabelled (h : k.IsReached) : k.IsLabelled := by
  obtain ⟨ops, rfl⟩ := h
  exact List.foldlRecOn (motive := IsLabelled) ops _ (isLabelled_of_empty rfl)
    fun _ hk op _ => hk.operation op

/-! ### Since the last reset -/

/-- The context after some operations on a new one. -/
def after (ops : List (Operation α)) : Context α := ops.foldl Operation.run new

theorem isReached_after (ops : List (Operation α)) : (after ops).IsReached := ⟨ops, rfl⟩

/-- The context was there after some of the operations, and none of those that followed was a
reset. -/
def IsSinceReset (ops : List (Operation α)) (k : Context α) : Prop :=
  ∃ before rest, ops = before ++ rest ∧ .reset ∉ rest ∧ k = after before

/-- The name was interned since the last reset. -/
def WasInterned (ops : List (Operation α)) (name : String) : Prop :=
  ∃ k, IsSinceReset ops k ∧ (k.lookup name).isSome

/-- Symbols stay interned until the next reset. -/
theorem IsSinceReset.extends {ops : List (Operation α)} (h : IsSinceReset ops k) :
    k.Extends (after ops) := by
  obtain ⟨before, rest, rfl, hrest, rfl⟩ := h
  rw [after, after, List.foldl_append]
  refine List.foldlRecOn (motive := (after before).Extends) rest _ (.refl _)
    fun k hk op hop => Operation.keeps (fun name k h => h.trans (interns_symbol name k).1)
      (fun stem k h => h.trans (isGrowing_freshSymbol stem k).extends)
      (fun h hdt => h.trans (extends_of_symbols (labels_withTimestep hdt).1)) ?_ hk
  exact fun hreset => hrest (hreset ▸ hop)

theorem wasInterned_iff {ops : List (Operation α)} :
    WasInterned ops name ↔ ((after ops).lookup name).isSome := by
  constructor
  · rintro ⟨k, hk, hname⟩
    exact hk.extends.isSome_lookup hname
  · exact fun h => ⟨after ops, ⟨ops, [], by simp, by simp, rfl⟩, h⟩

/-- After any operations, the search for a fresh label comes to an end, namely at the least number
whose label was not interned since the last reset. The fresh symbol has this label for its name and
is the one that it stands for from then on; it is none of the symbols that were interned since the
last reset, neither by its number nor by its name. -/
theorem freshSymbol_isLeast (ops : List (Operation α)) (stem : String) :
    let k := after ops
    let s := (freshSymbol stem k).1
    ∃ n, Labels.EndsAt (k.labels.isFree (k.symbols.symbols.map (·.name))) stem
        (k.labels.counter stem) n ∧
      IsLeast {n | ¬WasInterned ops (Labels.label stem n)} n ∧
      s.name = Labels.label stem n ∧ (freshSymbol stem k).2.lookup s.name = some s ∧
      ∀ k', IsSinceReset ops k' → ∀ r ∈ k'.symbols.symbols,
        (r == s) = false ∧ r.name ≠ s.name := by
  intro k s
  have hk : k.IsReached := isReached_after ops
  obtain ⟨n, hends, htext, -, -⟩ :=
    Labels.endsAt_fresh k.labels stem (k.symbols.symbols.map (·.name))
  have hleast := hk.isLabelled.isLeast hends
  have hlookup : (freshSymbol stem k).2.lookup (Labels.label stem n) = some s := by
    rw [← htext]
    exact lookup_symbol _ _
  have hname : s.name = Labels.label stem n := (lookup_spec hlookup).2
  refine ⟨n, hends, ?_, hname, hname ▸ hlookup, fun k' hk' r hr => ?_⟩
  · simpa only [wasInterned_iff, Option.not_isSome_iff_eq_none] using hleast
  · have hr : r ∈ k.symbols.symbols := hk'.extends.symbols.subset hr
    obtain ⟨m, l, -, hfresh⟩ := freshSymbol_spec stem k
    have hid : s.id = k.symbols.next := by
      show (freshSymbol stem k).1.id = _
      rw [hfresh]
    refine ⟨?_, fun hsame => ?_⟩
    · rw [← Bool.not_eq_true, Symbol.beq_iff, hid]
      exact (hk.isSound.isNumbered.lt_next r hr).ne
    · have hnone := lookup_eq_none_iff.1 hleast.1
      exact hnone (hname ▸ hsame ▸ List.mem_map_of_mem hr)

/-- A name that looks like a label blocks it, a longer stem does not, and a reset forgets both. -/
example :
    let name (ops : List (Operation Rat)) (stem : String) := (freshSymbol stem (after ops)).1.name
    name [.symbol "a1", .fresh "a"] "a" = "a2" ∧ name [.symbol "a1", .fresh "a"] "a1" = "a10" ∧
      name [.symbol "a1", .fresh "a", .reset] "a" = "a0" := by
  decide +kernel

end

end Kirchhoff.Context
