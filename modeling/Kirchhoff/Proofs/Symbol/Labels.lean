import Mathlib.Data.List.Nodup
import Mathlib.Data.List.Perm.Subperm
import Mathlib.Data.List.Range
import Kirchhoff.Symbol.Labels

/-!
# Fresh labels

The labels of a stem are all different, and each taken or issued label blocks at most one of them,
so a search among one more number than there are such labels ends at a free one
(`free_label_search`). The label that is issued is therefore the first free one from the next number
to try on, and trying these numbers in turn comes to an end there (`endsAt_fresh`).
-/

namespace Kirchhoff.Labels

variable {free : String → Bool} {stem : String} {tries n : ℕ}

/-! ### The text of a label -/

/-- The number of a label can be read off its digits. -/
theorem label_inj {m n : ℕ} : label stem m = label stem n ↔ m = n := by
  refine ⟨fun h => ?_, fun h => h ▸ rfl⟩
  rw [label, label, String.append_right_inj] at h
  have hdigits : Nat.toDigits 10 m = Nat.toDigits 10 n := by
    rw [← Nat.toList_repr, ← Nat.toList_repr, h]
  rw [← Nat.ofDigitChars_toDigits (b := 10) (n := m) (by decide) (by decide), hdigits,
    Nat.ofDigitChars_toDigits (by decide) (by decide)]

/-- The last character of a label is a digit. -/
theorem isDigit_of_getLast?_label {c : Char} (h : (label stem n).toList.getLast? = some c) :
    c.isDigit = true := by
  rw [label, String.toList_append, Nat.toList_repr,
    List.getLast?_append_of_ne_nil _ Nat.toDigits_ne_nil] at h
  exact Nat.isDigit_of_mem_toDigits (by decide) (by decide) (List.mem_of_getLast? h)

/-! ### Searching -/

/-- The number that a search ends at is free, or all numbers that were tried are not and it is the
one after them. -/
theorem free_search_or (free : String → Bool) (stem : String) (tries n : ℕ) :
    free (label stem (search free stem tries n)) = true ∨
    search free stem tries n = n + tries ∧ ∀ i < tries, free (label stem (n + i)) = false := by
  induction tries generalizing n with
  | zero => exact .inr ⟨rfl, fun i hi => absurd hi (Nat.not_lt_zero i)⟩
  | succ tries ih =>
    rw [search]
    split
    · rename_i hfree
      exact .inl hfree
    · rename_i hfree
      refine (ih (n + 1)).imp_right fun ⟨hend, htried⟩ => ⟨by omega, fun i hi => ?_⟩
      cases i with
      | zero => exact Bool.eq_false_iff.2 hfree
      | succ i =>
        rw [← htried i (by omega)]
        congr 2
        omega

/-- Among labels that are all different, there is a free one as soon as there are more of them than
labels that block. -/
theorem exists_free_label (stem : String) {blocked : List String} (h : blocked.length < tries)
    (hfree : ∀ s, s ∉ blocked → free s = true) (n : ℕ) :
    ∃ i < tries, free (label stem (n + i)) = true := by
  by_contra! hnone
  have hnodup : ((List.range tries).map fun i => label stem (n + i)).Nodup :=
    List.nodup_range.map fun i j hij => Nat.add_left_cancel (label_inj.1 hij)
  have hsubset : ((List.range tries).map fun i => label stem (n + i)) ⊆ blocked := by
    intro s hs
    obtain ⟨i, hi, rfl⟩ := List.mem_map.1 hs
    by_contra hblocked
    exact hnone i (List.mem_range.1 hi) (hfree _ hblocked)
  have hlength := (hnodup.subperm hsubset).length_le
  rw [List.length_map, List.length_range] at hlength
  omega

/-- A search among as many numbers as there are labels that block ends at a free label: if all of
these are blocked, nothing is left to block the next one. -/
theorem free_label_search (blocked : List String) (h : blocked.length = tries)
    (hfree : ∀ s, s ∉ blocked → free s = true) :
    free (label stem (search free stem tries n)) = true := by
  obtain hfound | ⟨hend, htried⟩ := free_search_or free stem tries n
  · exact hfound
  · obtain ⟨i, hi, hi'⟩ := exists_free_label stem (Nat.lt_succ_of_le h.le) hfree n
    obtain rfl | hlt := (Nat.le_of_lt_succ hi).eq_or_lt
    · rwa [hend]
    · rw [htried i hlt] at hi'
      cases hi'

/-- Trying the numbers from the first one on ends at the second one, which has a free label. -/
inductive EndsAt (free : String → Bool) (stem : String) : ℕ → ℕ → Prop
  | found {n : ℕ} (h : free (label stem n) = true) : EndsAt free stem n n
  | next {n m : ℕ} (h : free (label stem n) = false) (hrest : EndsAt free stem (n + 1) m) :
      EndsAt free stem n m

theorem EndsAt.isFree {m : ℕ} (h : EndsAt free stem n m) : free (label stem m) = true := by
  induction h with
  | found h => exact h
  | next _ _ ih => exact ih

/-- The labels that are passed over are not free. -/
theorem EndsAt.passed {m i : ℕ} (h : EndsAt free stem n m) (hni : n ≤ i) (him : i < m) :
    free (label stem i) = false := by
  induction h with
  | found => omega
  | @next n _ hn _ ih =>
    obtain rfl | hlt := hni.eq_or_lt
    · exact hn
    · exact ih hlt him

theorem endsAt_search (h : free (label stem (search free stem tries n)) = true) :
    EndsAt free stem n (search free stem tries n) := by
  induction tries generalizing n with
  | zero => exact .found h
  | succ tries ih =>
    rw [search] at h ⊢
    split at h
    · rename_i hfree
      rw [if_pos hfree]
      exact .found h
    · rename_i hfree
      rw [if_neg hfree]
      exact .next (Bool.eq_false_iff.2 hfree) (ih h)

/-! ### Issuing -/

theorem isFree_iff {l : Labels} {taken : List String} {s : String} :
    l.isFree taken s = true ↔ s ∉ l.issued ∧ s ∉ taken := by
  simp [isFree]

/-- A label that is issued was neither issued nor taken before. -/
theorem fresh_isFree (l : Labels) (stem : String) (taken : List String) :
    l.isFree taken (l.fresh stem taken).1 = true :=
  free_label_search (l.issued ++ taken) List.length_append fun s hs => by
    simpa [isFree_iff] using hs

theorem exists_label_of_fresh (l : Labels) (stem : String) (taken : List String) :
    ∃ n, (l.fresh stem taken).1 = label stem n := ⟨_, rfl⟩

theorem lookup_filter_ne {other : String} (h : other ≠ stem) (counters : List (String × ℕ)) :
    (counters.filter (·.1 != stem)).lookup other = counters.lookup other := by
  induction counters with
  | nil => rfl
  | cons c counters ih =>
    obtain ⟨name, n⟩ := c
    by_cases hname : name = stem
    · subst hname
      simp [ih, List.lookup_cons, beq_eq_false_iff_ne.2 h]
    · simp [hname, ih, List.lookup_cons]

theorem counter_fresh {l : Labels} {taken : List String} {m : ℕ}
    (h : (l.fresh stem taken).1 = label stem m) (other : String) :
    (l.fresh stem taken).2.counter other = if other = stem then m + 1 else l.counter other := by
  have hm : search (l.isFree taken) stem (l.issued.length + taken.length) (l.counter stem) = m :=
    label_inj.1 h
  rw [counter] at hm
  simp only [fresh, counter, hm, List.lookup_cons]
  by_cases hother : other = stem
  · simp [hother]
  · simp [hother, beq_eq_false_iff_ne.2 hother, lookup_filter_ne]

/-- The label that is issued is the first free one from the next number to try on, which is then
the number after it. -/
theorem endsAt_fresh (l : Labels) (stem : String) (taken : List String) :
    ∃ n, EndsAt (l.isFree taken) stem (l.counter stem) n ∧
      (l.fresh stem taken).1 = label stem n ∧
      (l.fresh stem taken).2.issued = label stem n :: l.issued ∧
      ∀ other, (l.fresh stem taken).2.counter other =
        if other = stem then n + 1 else l.counter other :=
  ⟨_, endsAt_search (l.fresh_isFree stem taken), rfl, rfl, counter_fresh rfl⟩

end Kirchhoff.Labels
