import Mathlib.Algebra.Order.Ring.Rat
import Mathlib.Algebra.Order.Field.Basic
import Kirchhoff.Proofs.Linear.ClosedForm

/-!
# Eliminating numbers

Entries without symbols have one value in all environments, and the probing gauge measures them by
their distance from zero (`Gauge.isExact_probing`). With tolerance zero such a gauge takes nothing
for zero that is not: an elimination of rows of numbers is faithful (`Gauge.IsExact.faithful`),
every pivot is a nonzero number, and a column without a pivot is zero in all rows that are not used
yet (`Gauge.IsExact.pivot_ne_zero`, `Gauge.IsExact.eq_zero_of_no_pivot`).
-/

namespace Kirchhoff

open Kirchhoff.Expr

/-! ### Numbers -/

/-- The property that no symbol has. -/
def NoSymbol (_ : Symbol) : Prop := False

/-- The environment in which no symbol and no call has a value. -/
def Environment.bare : Environment Rat := .ofIds fun _ => none

/-- What has no symbol has the same value in all environments with the same functions. -/
theorem Expr.eval_of_noSymbol {α : Type} [Scalar α] {ρ ρ' : Valuation α}
    (hfunction : ρ.function = ρ'.function) {e : Expr α} (h : e.Within NoSymbol) :
    e.eval ρ = e.eval ρ' :=
  eval_congr hfunction fun s hs => (h s hs).elim

theorem Scalar.abs_eq (x : Rat) : Scalar.abs x = |x| := by
  unfold Scalar.abs
  split
  · rename_i hx
    exact (abs_of_neg hx).symm
  · rename_i hx
    exact (abs_of_nonneg (not_lt.1 hx)).symm

theorem Scalar.le_max_left (x y : Rat) : x ≤ Scalar.max x y := by
  unfold Scalar.max
  split
  · rename_i hxy
    exact le_of_lt hxy
  · exact le_rfl

theorem Scalar.le_max_right (x y : Rat) : y ≤ Scalar.max x y := by
  unfold Scalar.max
  split
  · exact le_rfl
  · rename_i hxy
    exact not_lt.1 hxy

theorem Scalar.le_foldl_max {xs : List Rat} {m : Rat} :
    m ≤ xs.foldl Scalar.max m ∧ ∀ x ∈ xs, x ≤ xs.foldl Scalar.max m := by
  induction xs generalizing m with
  | nil => exact ⟨le_rfl, by simp⟩
  | cons y ys ih =>
    obtain ⟨hfirst, hrest⟩ := ih (m := Scalar.max m y)
    exact ⟨(Scalar.le_max_left m y).trans hfirst,
      List.forall_mem_cons.2 ⟨(Scalar.le_max_right m y).trans hfirst, hrest⟩⟩

namespace Gauge

/-- Nothing is tolerated, and numbers are measured by their distance from zero. -/
structure IsExact (ρ : Valuation Rat) (g : Gauge Rat) : Prop where
  tolerance : g.tolerance = 0
  magnitude {e : Expr Rat} {v : Rat} : e.Within NoSymbol → e.eval ρ = some v → g.magnitude e = |v|

theorem isExact_probing (probe : Symbol → Rat) (unknowns : List Symbol) :
    (Gauge.probing 0 probe unknowns).IsExact Environment.bare where
  tolerance := rfl
  magnitude {e v} he hv := by
    have hfunction (symbol : Symbol → Option Rat) :
        (Valuation.elementary symbol).function = Environment.bare.function := by
      funext name args
      match args with
      | [] | [_] | _ :: _ :: _ => rfl
    have hprobed (symbol : Symbol → Option Rat) : e.eval (.elementary symbol) = some v :=
      (eval_of_noSymbol (hfunction symbol) he).trans hv
    simp only [probing, hprobed]
    exact Scalar.abs_eq v

namespace IsExact

variable {ρ : Environment Rat} {g : Gauge Rat} {n c p : ℕ} {rows : List (PivotRow Rat)}
  {A : ℕ → ℕ → Rat} {B : ℕ → Rat} {row pivot : PivotRow Rat} {a q : ℕ → Rat} {b d : Rat}

/-! ### Pivots -/

/-- No coefficient is greater than the scale of its row. -/
theorem le_rowScale (hg : g.IsExact ρ) (hrow : row.HasValues ρ a b) (hfree : row.Within NoSymbol)
    (hc : c < row.coefficients.length) : |a c| ≤ g.rowScale row.toLinearRow := by
  rw [← hg.magnitude (hfree.coefficient c) (hrow.coefficient c)]
  refine Scalar.le_foldl_max.2 _ (List.mem_map_of_mem ?_)
  rw [LinearRow.coefficient, List.getElem?_eq_getElem hc]
  exact List.getElem_mem hc

/-- A pivot is not zero. -/
theorem pivot_ne_zero (hg : g.IsExact ρ) (hreads : Reads ρ n rows A B)
    (hfree : ∀ row ∈ rows, row.Within NoSymbol) (h : g.pivot? rows c = some p) : A p c ≠ 0 := by
  obtain ⟨row, x, hrow, hx⟩ := relative?_of_pivot? h
  obtain ⟨-, hlt⟩ := relative?_eq_some hx
  have hvalue := (hreads p row hrow trivial).2.coefficient c
  have hwithin := (hfree row (List.mem_of_getElem? hrow)).coefficient c
  rw [hg.tolerance, hg.magnitude hwithin hvalue] at hlt
  intro hzero
  rw [hzero, abs_zero, zero_div] at hlt
  exact lt_irrefl 0 hlt

/-- A column without a pivot is zero in all rows that are not used. -/
theorem eq_zero_of_no_pivot (hg : g.IsExact ρ) (hreads : Reads ρ n rows A B)
    (hfree : ∀ row ∈ rows, row.Within NoSymbol) (hc : c < n) (h : g.pivot? rows c = none) {r : ℕ}
    (hrow : rows[r]? = some row) (hunused : row.isUsed = false) : A r c = 0 := by
  have hmem : row ∈ rows := List.mem_of_getElem? hrow
  obtain ⟨hlength, hvalues⟩ := hreads r row hrow trivial
  have hnone := relative?_of_pivot?_eq_none h row hmem
  simp only [relative?, hunused, Bool.false_or] at hnone
  split at hnone
  · rename_i hz
    exact Option.some.inj ((hvalues.coefficient c).symm.trans (eval_of_isZero hz))
  · split at hnone
    · cases hnone
    · rename_i hle
      have hwithin := (hfree row hmem).coefficient c
      rw [hg.tolerance, hg.magnitude hwithin (hvalues.coefficient c)] at hle
      have hscale := hg.le_rowScale hvalues (hfree row hmem) (hlength ▸ hc)
      by_contra hne
      exact hle (div_pos (abs_pos.2 hne) ((abs_pos.2 hne).trans_le hscale))

/-! ### An elimination of numbers is faithful -/

theorem faithfulEntry (hg : g.IsExact ρ) {old delta : Expr Rat} {x y : Rat}
    (hold : old.Within NoSymbol) (hdelta : delta.Within NoSymbol) (hx : old.eval ρ = some x)
    (hy : delta.eval ρ = some y) : FaithfulEntry ρ g old delta := by
  rintro ⟨-, hle⟩
  have hvalue := eval_minus hx hy
  rw [hg.tolerance, zero_mul, hg.magnitude (within_minus hold hdelta) hvalue] at hle
  rw [hvalue, abs_nonpos_iff.1 hle]

theorem faithfulRow (hg : g.IsExact ρ) (hpivot : pivot.HasValues ρ q d)
    (hrow : row.HasValues ρ a b) (hpivotFree : pivot.Within NoSymbol)
    (hrowFree : row.Within NoSymbol) (hp : q c ≠ 0) : FaithfulRow ρ g pivot c row := by
  have hratio := eval_over (hrow.coefficient c) (hpivot.coefficient c) hp
  have hratioFree := within_over (hrowFree.coefficient c) (hpivotFree.coefficient c)
  refine fun _ => ⟨fun k _ _ _ => ?_, fun _ => ?_⟩
  · exact hg.faithfulEntry (hrowFree.coefficient k)
      (within_times hratioFree (hpivotFree.coefficient k)) (hrow.coefficient k)
      (eval_times hratio (hpivot.coefficient k))
  · exact hg.faithfulEntry hrowFree.rhs (within_times hratioFree hpivotFree.rhs) hrow.rhs
      (eval_times hratio hpivot.rhs)

theorem faithfulRest (hg : g.IsExact ρ) (hrow : row.HasValues ρ a b)
    (hfree : row.Within NoSymbol) : FaithfulRest ρ g row := by
  intro _ _ hle
  rw [hg.tolerance, zero_mul, hg.magnitude hfree.rhs hrow.rhs] at hle
  rw [hrow.rhs, abs_nonpos_iff.1 (not_lt.1 hle)]

/-- An elimination of numbers takes nothing for zero that is not. -/
theorem faithful (hg : g.IsExact ρ) (us : List Symbol) (hreads : Reads ρ n rows A B)
    (hfree : ∀ row ∈ rows, row.Within NoSymbol) : Faithful ρ g us c rows := by
  induction us generalizing c rows A B with
  | nil =>
    intro row hrow
    obtain ⟨r, hr⟩ := List.mem_iff_getElem?.1 hrow
    exact hg.faithfulRest (hreads r row hr trivial).2 (hfree row hrow)
  | cons u us ih =>
    intro p hp pivot hpivot
    have hne := hg.pivot_ne_zero hreads hfree hp
    have hpivotFree := hfree pivot (List.mem_of_getElem? hpivot)
    have hrows (r : ℕ) (row : PivotRow Rat) (hr : rows[r]? = some row) :
        FaithfulRow ρ g pivot c row :=
      hg.faithfulRow (hreads p pivot hpivot trivial).2 (hreads r row hr trivial).2 hpivotFree
        (hfree row (List.mem_of_getElem? hr)) hne
    refine ⟨?_, fun r _ row hr _ => hrows r row hr, ?_⟩
    · rw [(hreads p pivot hpivot trivial).2.coefficient c]
      exact fun hzero => hne (Option.some.inj hzero)
    · exact ih (reads_clearColumn hreads hpivot trivial hne fun r row hr _ _ => hrows r row hr)
        (within_clearColumn hpivotFree hfree)

end IsExact

end Gauge

end Kirchhoff
