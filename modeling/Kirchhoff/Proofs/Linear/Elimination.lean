import Mathlib.Algebra.BigOperators.Group.Finset.Basic
import Mathlib.Algebra.BigOperators.Ring.Finset
import Mathlib.Data.List.GetD
import Kirchhoff.Proofs.Expr.Canonical
import Kirchhoff.Linear.Elimination

/-!
# What an elimination keeps

Whether an elimination keeps the solutions of a system depends on the entries that the gauge
takes for zero. `Gauge.Faithful` says that, at one environment, no pivot is zero and everything
taken for zero is zero.

Eliminating an unknown then subtracts a multiple of the pivot row from a row
(`Gauge.eliminate_hasValues`), so that clearing a column sweeps it in the matrix of values
(`Gauge.reads_clearColumn`). A sweep keeps the columns cleared before (`Cleared.sweep`), and what
satisfies the rows after it is what satisfies them before (`sweep_iff`). A run is one sweep for each
column (`Gauge.run_runsTo`).

A row that is not used yet is changed only by the pivot row, which is not used either. So a run
sweeps the matrix also if the gauge is right about the unused rows only (`Gauge.run_sweepsTo`).
-/

namespace Kirchhoff

open Kirchhoff.Expr

/-! ### Rows and their values -/

/-- The values of the entries of a row. -/
structure LinearRow.HasValues (ρ : Valuation Rat) (r : LinearRow Rat) (a : ℕ → Rat) (b : Rat) :
    Prop where
  coefficient (j : ℕ) : (r.coefficient j).eval ρ = some (a j)
  rhs : r.rhs.eval ρ = some b

/-- All entries of a row have a value. -/
def LinearRow.IsDefined (ρ : Valuation Rat) (r : LinearRow Rat) : Prop :=
  (∀ e ∈ r.coefficients, (e.eval ρ).isSome) ∧ (r.rhs.eval ρ).isSome

instance (ρ : Valuation Rat) (r : LinearRow Rat) : Decidable (r.IsDefined ρ) :=
  inferInstanceAs (Decidable (_ ∧ _))

/-- The row is satisfied by values of the unknowns. -/
def LinearRow.Holds (ρ : Valuation Rat) (r : LinearRow Rat) (x : ℕ → Rat) : Prop :=
  ∃ a b, r.HasValues ρ a b ∧ ∑ j ∈ Finset.range r.coefficients.length, a j * x j = b

variable {ρ : Environment Rat} {g : Gauge Rat}

/-- A row is defined when all its entries have values. -/
theorem LinearRow.IsDefined.hasValues {r : LinearRow Rat} (h : r.IsDefined ρ) :
    ∃ a b, r.HasValues ρ a b := by
  obtain ⟨hc, hb⟩ := h
  obtain ⟨b, hb⟩ := Option.isSome_iff_exists.1 hb
  have hj (j : ℕ) : ∃ v, (r.coefficient j).eval ρ = some v := by
    unfold LinearRow.coefficient
    cases hget : r.coefficients[j]? with
    | none => exact ⟨0, rfl⟩
    | some e => exact Option.isSome_iff_exists.1 (hc e (List.mem_of_getElem? hget))
  choose a ha using hj
  exact ⟨a, b, ha, hb⟩

theorem LinearRow.HasValues.isDefined {r : LinearRow Rat} {a : ℕ → Rat} {b : Rat}
    (h : r.HasValues ρ a b) : r.IsDefined ρ := by
  refine ⟨fun e he => ?_, h.rhs ▸ rfl⟩
  obtain ⟨j, hj⟩ := List.mem_iff_getElem?.1 he
  have hvalue := h.coefficient j
  rw [LinearRow.coefficient, hj, Option.getD_some] at hvalue
  exact hvalue ▸ rfl

theorem eval_of_isZero {e : Expr Rat} (h : e.isZero = true) : e.eval ρ = some 0 := by
  cases e with
  | number v =>
    rw [eval_number, eq_of_beq (show (v == 0) = true from h)]
  | _ => simp [isZero] at h

theorem LinearRow.coefficient_eq_zero {r : LinearRow Rat} {j : ℕ} (h : r.coefficients.length ≤ j) :
    r.coefficient j = .number 0 := by
  simp [coefficient, List.getElem?_eq_none h]

/-! ### Judgements of the gauge -/

namespace Gauge

/-- The difference is taken for zero, although it is not written as zero. -/
def Neglects (g : Gauge Rat) (old delta : Expr Rat) : Prop :=
  (old - delta).isZero = false ∧
    g.magnitude (old - delta) ≤ g.tolerance * Scalar.max (g.magnitude old) (g.magnitude delta)

instance (old delta : Expr Rat) : Decidable (g.Neglects old delta) :=
  inferInstanceAs (Decidable (_ ∧ _))

/-- A difference that is taken for zero is zero. -/
def FaithfulEntry (ρ : Valuation Rat) (g : Gauge Rat) (old delta : Expr Rat) : Prop :=
  g.Neglects old delta → (old - delta).eval ρ = some 0

instance (ρ : Valuation Rat) (old delta : Expr Rat) : Decidable (FaithfulEntry ρ g old delta) :=
  inferInstanceAs (Decidable (_ → _))

/-- Whatever is taken for zero, when an unknown is eliminated from a row, is zero. -/
def FaithfulRow (ρ : Valuation Rat) (g : Gauge Rat) (pivot : PivotRow Rat) (c : ℕ)
    (r : PivotRow Rat) : Prop :=
  (r.coefficient c).isZero = false →
    (∀ k < pivot.coefficients.length, k ≠ c → (pivot.coefficient k).isZero = false →
      FaithfulEntry ρ g (r.coefficient k)
        (r.coefficient c / pivot.coefficient c * pivot.coefficient k)) ∧
    (pivot.rhs.isZero = false →
      FaithfulEntry ρ g r.rhs (r.coefficient c / pivot.coefficient c * pivot.rhs))

instance (ρ : Valuation Rat) (pivot : PivotRow Rat) (c : ℕ) (r : PivotRow Rat) :
    Decidable (FaithfulRow ρ g pivot c r) :=
  inferInstanceAs (Decidable (_ → _))

/-- A right-hand side that is left over at the end and accepted is zero. -/
def FaithfulRest (ρ : Valuation Rat) (g : Gauge Rat) (row : PivotRow Rat) : Prop :=
  row.isUsed = false → row.rhs.isZero = false →
    ¬ g.tolerance * row.scale < g.magnitude row.rhs → row.rhs.eval ρ = some 0

instance (ρ : Valuation Rat) (row : PivotRow Rat) : Decidable (FaithfulRest ρ g row) :=
  inferInstanceAs (Decidable (_ → _))

/-- At every column of a run, the pivot is not zero and whatever is taken for zero is zero. -/
def Faithful (ρ : Valuation Rat) (g : Gauge Rat) : List Symbol → ℕ → List (PivotRow Rat) → Prop
  | [], _, rows => ∀ row ∈ rows, FaithfulRest ρ g row
  | _ :: us, c, rows => ∀ p ∈ g.pivot? rows c, ∀ pivot ∈ rows[p]?,
      (pivot.coefficient c).eval ρ ≠ some 0 ∧
      (∀ r < rows.length, ∀ row ∈ rows[r]?, r ≠ p → FaithfulRow ρ g pivot c row) ∧
      Faithful ρ g us (c + 1) (g.clearColumn rows c p pivot)

instance decidableFaithful (ρ : Valuation Rat) :
    (us : List Symbol) → (c : ℕ) → (rows : List (PivotRow Rat)) → Decidable (Faithful ρ g us c rows)
  | [], _, rows => inferInstanceAs (Decidable (∀ row ∈ rows, FaithfulRest ρ g row))
  | _ :: us, c, rows =>
    have (p : ℕ) (pivot : PivotRow Rat) := decidableFaithful ρ us (c + 1)
      (g.clearColumn rows c p pivot)
    inferInstanceAs (Decidable (∀ p ∈ g.pivot? rows c, ∀ pivot ∈ rows[p]?,
      (pivot.coefficient c).eval ρ ≠ some 0 ∧
      (∀ r < rows.length, ∀ row ∈ rows[r]?, r ≠ p → FaithfulRow ρ g pivot c row) ∧
      Faithful ρ g us (c + 1) (g.clearColumn rows c p pivot)))

/-- A reduced entry has the value of the difference, if the gauge is right about it. -/
theorem eval_reduce {old delta : Expr Rat} {x y : Rat} (hx : old.eval ρ = some x)
    (hy : delta.eval ρ = some y) (h : FaithfulEntry ρ g old delta) :
    (g.reduce old delta).eval ρ = some (x - y) := by
  have hxy := eval_minus hx hy
  unfold reduce
  dsimp only
  split
  · exact hxy
  · rename_i hz
    split
    · rename_i hle
      rw [← hxy, h ⟨by simpa using hz, hle⟩]
      rfl
    · exact hxy

/-! ### One elimination -/

theorem eliminate_of_isZero {pivot row : PivotRow Rat} {c : ℕ}
    (hz : (row.coefficient c).isZero = true) : g.eliminate pivot c row = row := by
  simp [eliminate, hz]

theorem eliminate_coefficient {pivot row : PivotRow Rat} {c : ℕ}
    (hlen : row.coefficients.length = pivot.coefficients.length)
    (hz : (row.coefficient c).isZero = false) (j : ℕ) :
    (g.eliminate pivot c row).coefficient j =
      if j < row.coefficients.length then
        if j = c then .number 0
        else if (pivot.coefficient j).isZero then row.coefficient j
        else g.reduce (row.coefficient j)
          (row.coefficient c / pivot.coefficient c * pivot.coefficient j)
      else .number 0 := by
  have hcoefficients : (g.eliminate pivot c row).coefficients =
      List.zipWith (fun (old : Expr Rat) (kc : Expr Rat × ℕ) =>
        if kc.2 = c then .number 0
        else if kc.1.isZero then old
        else g.reduce old (row.coefficient c / pivot.coefficient c * kc.1))
        row.coefficients pivot.coefficients.zipIdx := by
    simp only [eliminate, hz, Bool.false_eq_true, if_false]
    split <;> rfl
  rw [LinearRow.coefficient, hcoefficients]
  split
  · rename_i hj
    have hj' : j < pivot.coefficients.length := hlen ▸ hj
    simp [LinearRow.coefficient, hj, hj']
  · rename_i hj
    have hj' : ¬ j < pivot.coefficients.length := hlen ▸ hj
    simp [hj, hj']

theorem eliminate_rhs {pivot row : PivotRow Rat} {c : ℕ}
    (hz : (row.coefficient c).isZero = false) :
    (g.eliminate pivot c row).rhs =
      if pivot.rhs.isZero then row.rhs
      else g.reduce row.rhs (row.coefficient c / pivot.coefficient c * pivot.rhs) := by
  simp only [eliminate, hz, Bool.false_eq_true, if_false]
  split <;> rfl

theorem eliminate_length {pivot row : PivotRow Rat} {c : ℕ}
    (hlen : row.coefficients.length = pivot.coefficients.length) :
    (g.eliminate pivot c row).coefficients.length = row.coefficients.length := by
  unfold eliminate
  split
  · rfl
  · dsimp only
    split <;> simp [hlen]

/-- Elimination marks no rows. -/
theorem eliminate_isUsed {pivot row : PivotRow Rat} {c : ℕ} :
    (g.eliminate pivot c row).isUsed = row.isUsed := by
  unfold eliminate
  split
  · rfl
  · dsimp only
    split <;> rfl

/-- Eliminating an unknown subtracts a multiple of the pivot row. -/
theorem eliminate_hasValues {pivot row : PivotRow Rat} {c : ℕ} {p a : ℕ → Rat} {q b : Rat}
    (hpivot : pivot.HasValues ρ p q) (hrow : row.HasValues ρ a b)
    (hlen : row.coefficients.length = pivot.coefficients.length) (hp : p c ≠ 0)
    (h : FaithfulRow ρ g pivot c row) :
    (g.eliminate pivot c row).HasValues ρ (fun j => a j - a c / p c * p j)
      (b - a c / p c * q) := by
  cases hz : (row.coefficient c).isZero with
  | true =>
    -- The unknown does not occur in the row, and the multiple is zero.
    have hac : a c = 0 := Option.some.inj ((hrow.coefficient c).symm.trans (eval_of_isZero hz))
    rw [eliminate_of_isZero hz]
    simpa [hac] using hrow
  | false =>
    obtain ⟨hentry, hrhs⟩ := h hz
    have hratio := eval_over (hrow.coefficient c) (hpivot.coefficient c) hp
    refine ⟨fun j => ?_, ?_⟩
    · have haj := hrow.coefficient j
      have hpj := hpivot.coefficient j
      rw [eliminate_coefficient hlen hz]
      split_ifs with hj hjc hpz
      · rw [hjc, eval_number, div_mul_cancel₀ _ hp, sub_self]
      · have hzero : p j = 0 := Option.some.inj (hpj.symm.trans (eval_of_isZero hpz))
        rw [hzero, mul_zero, sub_zero]
        exact haj
      · exact eval_reduce haj (eval_times hratio hpj)
          (hentry j (hlen ▸ hj) hjc (by simpa using hpz))
      · rw [LinearRow.coefficient_eq_zero (not_lt.1 hj), eval_number] at haj
        rw [LinearRow.coefficient_eq_zero (hlen ▸ not_lt.1 hj), eval_number] at hpj
        rw [eval_number, ← Option.some.inj haj, ← Option.some.inj hpj, mul_zero, sub_zero]
    · rw [eliminate_rhs hz]
      split_ifs with hqz
      · have hq : q = 0 := Option.some.inj (hpivot.rhs.symm.trans (eval_of_isZero hqz))
        rw [hq, mul_zero, sub_zero]
        exact hrow.rhs
      · exact eval_reduce hrow.rhs (eval_times hratio hpivot.rhs) (hrhs (by simpa using hqz))

end Gauge

/-! ### Matrices of values -/

/-- The values, by position, of the rows that matter, be it all rows or those that are not used. -/
def ReadsWhere (S : Bool → Prop) (ρ : Valuation Rat) (n : ℕ) (rows : List (PivotRow Rat))
    (A : ℕ → ℕ → Rat) (B : ℕ → Rat) : Prop :=
  ∀ r (row : PivotRow Rat), rows[r]? = some row → S row.isUsed →
    row.coefficients.length = n ∧ row.HasValues ρ (A r) (B r)

/-- The values of all rows, by position. -/
abbrev Reads := ReadsWhere fun _ => True

theorem ReadsWhere.imp {S S' : Bool → Prop} {n : ℕ} {rows : List (PivotRow Rat)} {A : ℕ → ℕ → Rat}
    {B : ℕ → Rat} (h : ReadsWhere S ρ n rows A B) (hS : ∀ b, S' b → S b) :
    ReadsWhere S' ρ n rows A B := fun r row hrow hmatters => h r row hrow (hS _ hmatters)

/-- The multiple of the pivot row that clearing a column subtracts from a row. -/
def multiple (A : ℕ → ℕ → Rat) (c p r : ℕ) : Rat := if r = p then 0 else A r c / A p c

/-- In the column all values but the one in the pivot row are zero. -/
def Cleared (A : ℕ → ℕ → Rat) (c p : ℕ) : Prop := A p c ≠ 0 ∧ ∀ r, r ≠ p → A r c = 0

/-- The matrix after a column is cleared by the row at a position. -/
def sweep (A : ℕ → ℕ → Rat) (c p : ℕ) : ℕ → ℕ → Rat := fun r j =>
  A r j - multiple A c p r * A p j

/-- The right-hand sides after a column is cleared by the row at a position. -/
def sweepRhs (A : ℕ → ℕ → Rat) (B : ℕ → Rat) (c p : ℕ) : ℕ → Rat := fun r =>
  B r - multiple A c p r * B p

section

variable {A : ℕ → ℕ → Rat} {B : ℕ → Rat} {c j p q r : ℕ}

theorem multiple_self : multiple A c p p = 0 := if_pos rfl

theorem sweep_self : sweep A c p p = A p := by
  funext j
  rw [sweep, multiple_self, zero_mul, sub_zero]

theorem cleared_sweep (h : A p c ≠ 0) : Cleared (sweep A c p) c p := by
  refine ⟨by rwa [sweep_self], fun r hr => ?_⟩
  rw [sweep, multiple, if_neg hr, div_mul_cancel₀ _ h, sub_self]

/-- Clearing a column by another row keeps a column that was cleared before. -/
theorem Cleared.sweep (h : Cleared A j q) (hpq : p ≠ q) : Cleared (sweep A c p) j q := by
  have hkeep (r : ℕ) : Kirchhoff.sweep A c p r j = A r j := by
    rw [Kirchhoff.sweep, h.2 p hpq, mul_zero, sub_zero]
  exact ⟨by rw [hkeep]; exact h.1, fun r hr => by rw [hkeep]; exact h.2 r hr⟩

/-- Sweeping subtracts a multiple of the row of the pivot. -/
theorem sum_sweep (n : ℕ) (x : ℕ → Rat) :
    ∑ j ∈ Finset.range n, sweep A c p r j * x j =
      ∑ j ∈ Finset.range n, A r j * x j -
        multiple A c p r * ∑ j ∈ Finset.range n, A p j * x j := by
  rw [Finset.mul_sum, ← Finset.sum_sub_distrib]
  refine Finset.sum_congr rfl fun j _ => ?_
  rw [sweep]
  ring

/-- Clearing a column by one of the rows changes neither what satisfies the rows nor, for the
multiple zero of the right-hand sides, their kernel. -/
theorem sweep_iff {n m : ℕ} (hp : p < m) (t : Rat) (x : ℕ → Rat) :
    (∀ r < m, ∑ j ∈ Finset.range n, sweep A c p r j * x j = t * sweepRhs A B c p r) ↔
      ∀ r < m, ∑ j ∈ Finset.range n, A r j * x j = t * B r := by
  simp only [sum_sweep, sweepRhs]
  constructor
  · intro h r hr
    have hpivot := h p hp
    rw [multiple_self, zero_mul, zero_mul, sub_zero, sub_zero] at hpivot
    have hrow := h r hr
    rw [hpivot, mul_sub, mul_left_comm t] at hrow
    exact sub_left_inj.1 hrow
  · intro h r hr
    rw [h r hr, h p hp]
    ring

end

/-! ### One column -/

namespace Gauge

variable {rows : List (PivotRow Rat)} {A : ℕ → ℕ → Rat} {B : ℕ → Rat} {n c p : ℕ}

theorem relative?_eq_some {row : PivotRow Rat} {x : Rat} (h : g.relative? c row = some x) :
    row.isUsed = false ∧
      g.tolerance < g.magnitude (row.coefficient c) / g.rowScale row.toLinearRow := by
  simp only [relative?] at h
  split at h
  · cases h
  · rename_i hrow
    split at h
    · rename_i hlt
      exact ⟨(by simpa using hrow : _ ∧ _).1, hlt⟩
    · cases h

theorem betterPivot_cases {best : Option (ℕ × Rat)} {r : ℕ} {o : Option Rat} {b : ℕ × Rat}
    (h : betterPivot best r o = some b) : best = some b ∨ b.1 = r ∧ ∃ x, o = some x := by
  cases o with
  | none => exact .inl h
  | some x =>
    refine Or.imp_right (fun hb => ⟨hb, x, rfl⟩) ?_
    cases best with
    | none => exact .inr (Option.some.inj h ▸ rfl)
    | some pm =>
      simp only [betterPivot] at h
      split at h
      · exact .inr (Option.some.inj h ▸ rfl)
      · exact .inl h

theorem foldl_betterPivot {l : List (PivotRow Rat × ℕ)} {best : Option (ℕ × Rat)} {b : ℕ × Rat}
    (h : l.foldl (fun best (row, r) => betterPivot best r (g.relative? c row)) best = some b) :
    best = some b ∨ ∃ row x, (row, b.1) ∈ l ∧ g.relative? c row = some x := by
  induction l generalizing best with
  | nil => exact .inl h
  | cons rr l ih =>
    obtain hbest | ⟨row, x, hmem, hx⟩ := ih h
    · obtain hbest | ⟨hb, x, hx⟩ := betterPivot_cases hbest
      · exact .inl hbest
      · exact .inr ⟨rr.1, x, by rw [hb]; exact List.mem_cons_self, hx⟩
    · exact .inr ⟨row, x, List.mem_cons_of_mem _ hmem, hx⟩

/-- The pivot of a column is a row that may become one. -/
theorem relative?_of_pivot? (h : g.pivot? rows c = some p) :
    ∃ row x, rows[p]? = some row ∧ g.relative? c row = some x := by
  obtain ⟨b, hb, rfl⟩ := Option.map_eq_some_iff.1 h
  obtain hnone | ⟨row, x, hmem, hx⟩ := foldl_betterPivot hb
  · cases hnone
  · exact ⟨row, x, (List.mem_zipIdx_iff_getElem?).1 hmem, hx⟩

/-- The pivot of a column is a row that no column used. -/
theorem pivot?_unused (h : g.pivot? rows c = some p) :
    ∃ row, rows[p]? = some row ∧ row.isUsed = false := by
  obtain ⟨row, x, hrow, hx⟩ := relative?_of_pivot? h
  exact ⟨row, hrow, (relative?_eq_some hx).1⟩

/-- The row of a pivot was not used before. -/
theorem isUsed_of_pivot? {pivot : PivotRow Rat} (h : g.pivot? rows c = some p)
    (hpivot : rows[p]? = some pivot) : pivot.isUsed = false := by
  obtain ⟨row, hrow, hunused⟩ := pivot?_unused h
  rwa [Option.some.inj (hpivot.symm.trans hrow)]

theorem betterPivot_eq_none {best : Option (ℕ × Rat)} {r : ℕ} {o : Option Rat}
    (h : betterPivot best r o = none) : best = none ∧ o = none := by
  cases o with
  | none => exact ⟨h, rfl⟩
  | some x =>
    cases best with
    | none => cases h
    | some pm =>
      simp only [betterPivot] at h
      split at h <;> cases h

/-- No pivot is found only if no row has a candidate. -/
theorem foldl_betterPivot_eq_none {l : List (PivotRow Rat × ℕ)} {best : Option (ℕ × Rat)}
    (h : l.foldl (fun best (row, r) => betterPivot best r (g.relative? c row)) best = none) :
    best = none ∧ ∀ rr ∈ l, g.relative? c rr.1 = none := by
  induction l generalizing best with
  | nil => exact ⟨h, by simp⟩
  | cons rr l ih =>
    obtain ⟨hfirst, hrest⟩ := ih h
    obtain ⟨hbest, hrr⟩ := betterPivot_eq_none hfirst
    exact ⟨hbest, List.forall_mem_cons.2 ⟨hrr, hrest⟩⟩

/-- A column has no pivot only if no row may become one. -/
theorem relative?_of_pivot?_eq_none (h : g.pivot? rows c = none) :
    ∀ row ∈ rows, g.relative? c row = none := by
  intro row hrow
  obtain ⟨r, hr⟩ := List.mem_iff_getElem?.1 hrow
  exact (foldl_betterPivot_eq_none (Option.map_eq_none_iff.1 h)).2 (row, r)
    (List.mem_zipIdx_iff_getElem?.2 hr)

theorem getElem?_clearColumn {pivot : PivotRow Rat} (r : ℕ) :
    (g.clearColumn rows c p pivot)[r]? = rows[r]?.map fun row =>
      if r = p then { row with isUsed := true } else g.eliminate pivot c row := by
  simp [clearColumn]

/-- Clearing a column marks the row of its pivot, and no other. -/
theorem isUsed_clearColumn {pivot row' : PivotRow Rat} {r : ℕ}
    (h : (g.clearColumn rows c p pivot)[r]? = some row') :
    ∃ row, rows[r]? = some row ∧ row'.isUsed = (row.isUsed || decide (r = p)) := by
  rw [getElem?_clearColumn, Option.map_eq_some_iff] at h
  obtain ⟨row, hrow, rfl⟩ := h
  refine ⟨row, hrow, ?_⟩
  split_ifs with hr
  · simp [hr]
  · simp [hr, eliminate_isUsed]

/-- Clearing a column of the rows sweeps it in the matrix of their values. The rows that matter go
into the pivot row and into themselves only. -/
theorem reads_clearColumn {S : Bool → Prop} {pivot : PivotRow Rat} (h : ReadsWhere S ρ n rows A B)
    (hpivot : rows[p]? = some pivot) (hS : S pivot.isUsed) (hp : A p c ≠ 0)
    (hf : ∀ r row, rows[r]? = some row → r ≠ p → S row.isUsed → FaithfulRow ρ g pivot c row) :
    ReadsWhere S ρ n (g.clearColumn rows c p pivot) (sweep A c p) (sweepRhs A B c p) := by
  intro r row' hrow' hmatters
  rw [getElem?_clearColumn, Option.map_eq_some_iff] at hrow'
  obtain ⟨row, hrow, rfl⟩ := hrow'
  obtain ⟨hplen, hpvalues⟩ := h p pivot hpivot hS
  split_ifs at hmatters ⊢ with hr
  · subst hr
    obtain rfl : pivot = row := Option.some.inj (hpivot.symm.trans hrow)
    refine ⟨hplen, ?_⟩
    rw [sweep_self, sweepRhs, multiple_self, zero_mul, sub_zero]
    exact ⟨hpvalues.coefficient, hpvalues.rhs⟩
  · rw [eliminate_isUsed] at hmatters
    obtain ⟨hlen, hvalues⟩ := h r row hrow hmatters
    refine ⟨(eliminate_length (hlen.trans hplen.symm)).trans hlen, ?_⟩
    have hm : multiple A c p r = A r c / A p c := if_neg hr
    have hrow' := eliminate_hasValues hpvalues hvalues (hlen.trans hplen.symm) hp
      (hf r row hrow hr hmatters)
    rwa [← hm] at hrow'

/-! ### A run -/

/-- A run finds a pivot, clears its column and goes on with the next. -/
theorem run_cons {α : Type} [Scalar α] {g : Gauge α} {u : Symbol} {us : List Symbol}
    {rows rows' : List (PivotRow α)} {pivots : List ℕ}
    (h : g.run (u :: us) c rows = .ok (rows', pivots)) :
    ∃ p pivot ps, g.pivot? rows c = some p ∧ rows[p]? = some pivot ∧ pivots = p :: ps ∧
      g.run us (c + 1) (g.clearColumn rows c p pivot) = .ok (rows', ps) := by
  simp only [run] at h
  split at h
  · cases h
  · rename_i p hp
    split at h
    · cases h
    · rename_i pivot hpivot
      cases hrun : g.run us (c + 1) (g.clearColumn rows c p pivot) with
      | error e => simp [hrun, bind, Except.bind] at h
      | ok result =>
        simp [hrun, bind, Except.bind, pure, Except.pure] at h
        exact ⟨p, pivot, result.2, hp, hpivot, h.2.symm, by rw [hrun, ← h.1]⟩

theorem run_cons_eq {α : Type} [Scalar α] {g : Gauge α} {u : Symbol} {us : List Symbol}
    {rows : List (PivotRow α)} {pivot : PivotRow α} (hp : g.pivot? rows c = some p)
    (hpivot : rows[p]? = some pivot) :
    g.run (u :: us) c rows = (g.run us (c + 1) (g.clearColumn rows c p pivot)).map
      fun result => (result.1, p :: result.2) := by
  simp only [run, hp, hpivot]
  cases g.run us (c + 1) (g.clearColumn rows c p pivot) <;> rfl

/-- A run fails at the first unknown whose column has no pivot. -/
theorem run_error {us : List Symbol} {e : SolverError Rat} (h : g.run us c rows = .error e) :
    ∃ k u rows' pivots, us[k]? = some u ∧ e = .singular u ∧
      g.run (us.take k) c rows = .ok (rows', pivots) ∧ g.pivot? rows' (c + k) = none := by
  induction us generalizing c rows with
  | nil => cases h
  | cons u us ih =>
    cases hp : g.pivot? rows c with
    | none =>
      simp only [run, hp] at h
      cases h
      exact ⟨0, u, rows, [], rfl, rfl, rfl, hp⟩
    | some p =>
      obtain ⟨pivot, hpivot, -⟩ := pivot?_unused hp
      rw [run_cons_eq hp hpivot] at h
      cases hrun : g.run us (c + 1) (g.clearColumn rows c p pivot) with
      | ok result => simp [hrun, Except.map] at h
      | error e' =>
        obtain rfl : e' = e := by simpa [hrun, Except.map] using h
        obtain ⟨k, u', rows', ps, hu', he, htake, hnone⟩ := ih hrun
        refine ⟨k + 1, u', rows', p :: ps, hu', he, ?_, ?_⟩
        · rw [List.take_succ_cons, run_cons_eq hp hpivot, htake]
          rfl
        · rwa [show c + (k + 1) = c + 1 + k by omega]

/-- A column that a run comes to, with the rows that it finds there. -/
structure Stage (α : Type) where
  column : ℕ
  rows : List (PivotRow α)

/-- The stages of a run, up to the column at which it ends or fails. -/
def stages {α : Type} [Scalar α] (g : Gauge α) :
    List Symbol → ℕ → List (PivotRow α) → List (Stage α)
  | [], _, _ => []
  | _ :: us, c, rows =>
    ⟨c, rows⟩ ::
      match g.pivot? rows c with
      | none => []
      | some p =>
        match rows[p]? with
        | none => []
        | some pivot => g.stages us (c + 1) (g.clearColumn rows c p pivot)

theorem stages_cons {α : Type} [Scalar α] {g : Gauge α} {u : Symbol} {us : List Symbol}
    {rows : List (PivotRow α)} {pivot : PivotRow α} (hp : g.pivot? rows c = some p)
    (hpivot : rows[p]? = some pivot) :
    g.stages (u :: us) c rows =
      ⟨c, rows⟩ :: g.stages us (c + 1) (g.clearColumn rows c p pivot) := by
  simp only [stages, hp, hpivot]

/-- What holds at the start and is kept when a column is cleared holds at all stages. -/
theorem forall_mem_stages {α : Type} [Scalar α] {g : Gauge α} {P : List (PivotRow α) → Prop}
    (hstep : ∀ {rows : List (PivotRow α)} {c p : ℕ} {pivot : PivotRow α}, P rows →
      g.pivot? rows c = some p → rows[p]? = some pivot → P (g.clearColumn rows c p pivot))
    {us : List Symbol} {rows : List (PivotRow α)} (h : P rows) :
    ∀ s ∈ g.stages us c rows, P s.rows := by
  induction us generalizing c rows with
  | nil => simp [stages]
  | cons u us ih =>
    rw [stages, List.forall_mem_cons]
    refine ⟨h, ?_⟩
    split
    · exact List.forall_mem_nil _
    · rename_i p hp
      split
      · exact List.forall_mem_nil _
      · rename_i pivot hpivot
        exact ih (hstep h hp hpivot)

/-- After a run come the stages of the run from its end. -/
theorem stages_append {α : Type} [Scalar α] {g : Gauge α} {us : List Symbol}
    {rows rows' : List (PivotRow α)} {pivots : List ℕ}
    (h : g.run us c rows = .ok (rows', pivots)) (vs : List Symbol) :
    g.stages (us ++ vs) c rows = g.stages us c rows ++ g.stages vs (c + us.length) rows' := by
  induction us generalizing c rows pivots with
  | nil =>
    obtain ⟨rfl, -⟩ : rows = rows' ∧ [] = pivots := by simpa [run] using h
    rfl
  | cons u us ih =>
    obtain ⟨p, pivot, ps, hp, hpivot, -, htail⟩ := run_cons h
    rw [List.cons_append, stages_cons hp hpivot, stages_cons hp hpivot, ih htail,
      List.cons_append, List.length_cons, Nat.add_assoc, Nat.add_comm 1]

/-- The last stage of a run that fails is the one at the column without a pivot. -/
theorem stages_of_take {α : Type} [Scalar α] {g : Gauge α} {us : List Symbol} {k : ℕ}
    {rows rows' : List (PivotRow α)} {pivots : List ℕ} (hk : k < us.length)
    (h : g.run (us.take k) c rows = .ok (rows', pivots)) (hnone : g.pivot? rows' (c + k) = none) :
    g.stages us c rows = g.stages (us.take k) c rows ++ [⟨c + k, rows'⟩] := by
  have happend := stages_append h (us.drop k)
  rw [List.take_append_drop, List.length_take_of_le hk.le, List.drop_eq_getElem_cons hk] at happend
  rw [happend]
  simp only [stages, hnone]

/-- The pivot at the stage is not zero, and whatever is taken for zero in the rows that matter is
zero. -/
def Stage.IsFaithful (S : Bool → Prop) (ρ : Valuation Rat) (g : Gauge Rat) (s : Stage Rat) : Prop :=
  ∀ p, g.pivot? s.rows s.column = some p → ∀ pivot : PivotRow Rat, s.rows[p]? = some pivot →
    (pivot.coefficient s.column).eval ρ ≠ some 0 ∧
    ∀ (r : ℕ) (row : PivotRow Rat), s.rows[r]? = some row → r ≠ p → S row.isUsed →
      FaithfulRow ρ g pivot s.column row

/-- What a run from a column on makes of a matrix: the column of each pivot is cleared, and the rows
are satisfied by what satisfied them at the start, also when all right-hand sides are multiplied by
a number. -/
structure SweepsTo (n c : ℕ) (rows : List (PivotRow Rat)) (A : ℕ → ℕ → Rat) (B : ℕ → Rat)
    (rows' : List (PivotRow Rat)) (pivots : List ℕ) (A' : ℕ → ℕ → Rat) (B' : ℕ → Rat) : Prop where
  length : rows'.length = rows.length
  pivots_nodup : pivots.Nodup
  pivots_unused : ∀ p ∈ pivots, ∃ row, rows[p]? = some row ∧ row.isUsed = false
  cleared : ∀ k p, pivots[k]? = some p → Cleared A' (c + k) p
  keeps : ∀ j q, q ∉ pivots → Cleared A j q → Cleared A' j q
  satisfies_iff : ∀ (t : Rat) (x : ℕ → Rat),
    (∀ r < rows.length, ∑ j ∈ Finset.range n, A' r j * x j = t * B' r) ↔
      ∀ r < rows.length, ∑ j ∈ Finset.range n, A r j * x j = t * B r
  isUsed : ∀ r row', rows'[r]? = some row' →
    ∃ row, rows[r]? = some row ∧ row'.isUsed = (row.isUsed || decide (r ∈ pivots))

/-- What a run leaves of which all that is taken for zero is zero: the values of the rows are those
of the matrix, and the right-hand sides that are left over and accepted are zero. -/
structure RunsTo (ρ : Environment Rat) (g : Gauge Rat) (n c : ℕ) (rows : List (PivotRow Rat))
    (A : ℕ → ℕ → Rat) (B : ℕ → Rat) (rows' : List (PivotRow Rat)) (pivots : List ℕ)
    (A' : ℕ → ℕ → Rat) (B' : ℕ → Rat) : Prop extends
    SweepsTo n c rows A B rows' pivots A' B' where
  reads : Reads ρ n rows' A' B'
  rest : ∀ row ∈ rows', FaithfulRest ρ g row

/-- The rows that a run uses are those of its pivots. -/
theorem SweepsTo.isUsed_eq {rows rows' : List (PivotRow Rat)} {A A' : ℕ → ℕ → Rat}
    {B B' : ℕ → Rat} {pivots : List ℕ} (h : SweepsTo n c rows A B rows' pivots A' B')
    (hstart : ∀ row ∈ rows, row.isUsed = false) {r : ℕ} {row' : PivotRow Rat}
    (hrow' : rows'[r]? = some row') : row'.isUsed = decide (r ∈ pivots) := by
  obtain ⟨row, hrow, hused⟩ := h.isUsed r row' hrow'
  rw [hused, hstart row (List.mem_of_getElem? hrow), Bool.false_or]

/-- What satisfies the rows at the end satisfies them at the start. -/
theorem SweepsTo.satisfies {rows rows' : List (PivotRow Rat)} {A A' : ℕ → ℕ → Rat}
    {B B' : ℕ → Rat} {pivots : List ℕ} (h : SweepsTo n c rows A B rows' pivots A' B')
    (x : ℕ → Rat) (hx : ∀ r < rows.length, ∑ j ∈ Finset.range n, A' r j * x j = B' r) :
    ∀ r < rows.length, ∑ j ∈ Finset.range n, A r j * x j = B r := by
  simpa using (h.satisfies_iff 1 x).1 (by simpa using hx)

theorem Faithful.cons {u : Symbol} {us : List Symbol} {rows : List (PivotRow Rat)}
    {pivot : PivotRow Rat} (h : Faithful ρ g (u :: us) c rows) (hp : g.pivot? rows c = some p)
    (hpivot : rows[p]? = some pivot) :
    (pivot.coefficient c).eval ρ ≠ some 0 ∧
      (∀ r row, rows[r]? = some row → r ≠ p → FaithfulRow ρ g pivot c row) ∧
      Faithful ρ g us (c + 1) (g.clearColumn rows c p pivot) := by
  obtain ⟨hzero, hrows, hrest⟩ := h p hp pivot hpivot
  exact ⟨hzero, fun r row hr => hrows r (List.getElem?_eq_some_iff.1 hr).1 row hr, hrest⟩

/-- One column in front of a run. -/
theorem SweepsTo.cons {rows rows' : List (PivotRow Rat)} {pivot : PivotRow Rat}
    {A A' : ℕ → ℕ → Rat} {B B' : ℕ → Rat} {ps : List ℕ}
    (hp : g.pivot? rows c = some p) (hpivot : rows[p]? = some pivot) (hzero : A p c ≠ 0)
    (h : SweepsTo n (c + 1) (g.clearColumn rows c p pivot) (sweep A c p) (sweepRhs A B c p)
      rows' ps A' B') :
    SweepsTo n c rows A B rows' (p :: ps) A' B' := by
  have hlength : (g.clearColumn rows c p pivot).length = rows.length := by simp [clearColumn]
  have hpn : p < rows.length := (List.getElem?_eq_some_iff.1 hpivot).1
  -- The row of the pivot is used from now on, and no later column takes it.
  have hpps : p ∉ ps := by
    intro hmem
    obtain ⟨row', hrow', hused⟩ := h.pivots_unused p hmem
    obtain ⟨_, _, hor⟩ := isUsed_clearColumn hrow'
    simp [hused] at hor
  refine
    { length := h.length.trans hlength
      pivots_nodup := List.nodup_cons.2 ⟨hpps, h.pivots_nodup⟩
      pivots_unused := ?_
      cleared := ?_
      keeps := ?_
      satisfies_iff := ?_
      isUsed := ?_ }
  · rintro q hq
    obtain rfl | hq := List.mem_cons.1 hq
    · exact ⟨pivot, hpivot, isUsed_of_pivot? hp hpivot⟩
    · obtain ⟨row', hrow', hused⟩ := h.pivots_unused q hq
      obtain ⟨row, hrow, hor⟩ := isUsed_clearColumn hrow'
      refine ⟨row, hrow, ?_⟩
      rw [hused] at hor
      exact (Bool.or_eq_false_iff.1 hor.symm).1
  · intro k q hk
    cases k with
    | zero =>
      obtain rfl : p = q := by simpa using hk
      exact h.keeps c p hpps (cleared_sweep hzero)
    | succ k =>
      rw [show c + (k + 1) = c + 1 + k by omega]
      exact h.cleared k q (by simpa using hk)
  · intro j q hq hcleared
    obtain ⟨hne, hq⟩ : q ≠ p ∧ q ∉ ps := by simpa using hq
    exact h.keeps j q hq (hcleared.sweep hne.symm)
  · intro t x
    have hswept := h.satisfies_iff t x
    rw [hlength] at hswept
    exact hswept.trans (sweep_iff hpn t x)
  · intro r row' hrow'
    obtain ⟨row₁, hrow₁, hused₁⟩ := h.isUsed r row' hrow'
    obtain ⟨row, hrow, hused⟩ := isUsed_clearColumn hrow₁
    refine ⟨row, hrow, ?_⟩
    rw [hused₁, hused, Bool.or_assoc]
    simp [List.mem_cons]

/-- A run on which, at each stage, the pivot is not zero and whatever is taken for zero is zero
sweeps the columns one by one. The values of the rows that matter go along, and the rows that are
not used matter always. -/
theorem run_sweepsTo {S : Bool → Prop} (hS : S false) {us : List Symbol}
    {rows rows' : List (PivotRow Rat)} {pivots : List ℕ} {A : ℕ → ℕ → Rat} {B : ℕ → Rat}
    (hrun : g.run us c rows = .ok (rows', pivots))
    (hf : ∀ s ∈ g.stages us c rows, s.IsFaithful S ρ g) (hreads : ReadsWhere S ρ n rows A B) :
    ∃ A' B', SweepsTo n c rows A B rows' pivots A' B' ∧ ReadsWhere S ρ n rows' A' B' := by
  induction us generalizing c rows rows' pivots A B with
  | nil =>
    obtain ⟨rfl, rfl⟩ : rows = rows' ∧ [] = pivots := by
      simpa [run] using hrun
    refine ⟨A, B, ?_, hreads⟩
    exact
      { length := rfl
        pivots_nodup := List.nodup_nil
        pivots_unused := by simp
        cleared := by simp
        keeps := fun _ _ _ h => h
        satisfies_iff := fun _ _ => Iff.rfl
        isUsed := fun r row hrow => ⟨row, hrow, by simp⟩ }
  | cons u us ih =>
    obtain ⟨p, pivot, ps, hp, hpivot, rfl, htail⟩ := run_cons hrun
    rw [stages_cons hp hpivot, List.forall_mem_cons] at hf
    obtain ⟨hzero, hrows⟩ := hf.1 p hp pivot hpivot
    have hmatters : S pivot.isUsed := by rwa [isUsed_of_pivot? hp hpivot]
    have hApc : A p c ≠ 0 := by
      rintro hA
      rw [(hreads p pivot hpivot hmatters).2.coefficient c, hA] at hzero
      exact hzero rfl
    obtain ⟨A', B', hto, hreads'⟩ :=
      ih htail hf.2 (reads_clearColumn hreads hpivot hmatters hApc hrows)
    exact ⟨A', B', hto.cons hp hpivot hApc, hreads'⟩

theorem Faithful.stages {us : List Symbol} {rows : List (PivotRow Rat)}
    (h : Faithful ρ g us c rows) :
    ∀ s ∈ g.stages us c rows, s.IsFaithful (fun _ => True) ρ g := by
  induction us generalizing c rows with
  | nil => simp [Gauge.stages]
  | cons u us ih =>
    rw [Gauge.stages, List.forall_mem_cons]
    refine ⟨fun p hp pivot hpivot => ?_, ?_⟩
    · obtain ⟨hzero, hrows, -⟩ := h.cons hp hpivot
      exact ⟨hzero, fun r row hrow hr _ => hrows r row hrow hr⟩
    · split
      · exact List.forall_mem_nil _
      · rename_i p hp
        split
        · exact List.forall_mem_nil _
        · rename_i pivot hpivot
          exact ih (h.cons hp hpivot).2.2

theorem Faithful.rest {us : List Symbol} {rows rows' : List (PivotRow Rat)} {pivots : List ℕ}
    (h : Faithful ρ g us c rows) (hrun : g.run us c rows = .ok (rows', pivots)) :
    ∀ row ∈ rows', FaithfulRest ρ g row := by
  induction us generalizing c rows pivots with
  | nil =>
    obtain ⟨rfl, -⟩ : rows = rows' ∧ [] = pivots := by simpa [run] using hrun
    exact h
  | cons u us ih =>
    obtain ⟨p, pivot, ps, hp, hpivot, -, htail⟩ := run_cons hrun
    exact ih (h.cons hp hpivot).2.2 htail

/-- A faithful run sweeps the matrix of values, and its rows have the values that result. -/
theorem run_runsTo {us : List Symbol} {rows rows' : List (PivotRow Rat)} {pivots : List ℕ}
    {A : ℕ → ℕ → Rat} {B : ℕ → Rat} (hrun : g.run us c rows = .ok (rows', pivots))
    (hf : Faithful ρ g us c rows) (hreads : Reads ρ n rows A B) :
    ∃ A' B', RunsTo ρ g n c rows A B rows' pivots A' B' := by
  obtain ⟨A', B', hto, hreads'⟩ := run_sweepsTo trivial hrun hf.stages hreads
  exact ⟨A', B', { hto with reads := hreads', rest := hf.rest hrun }⟩

theorem run_length {α : Type} [Scalar α] {g : Gauge α} {us : List Symbol}
    {rows rows' : List (PivotRow α)} {pivots : List ℕ}
    (hrun : g.run us c rows = .ok (rows', pivots)) : pivots.length = us.length := by
  induction us generalizing c rows rows' pivots with
  | nil =>
    obtain ⟨rfl, rfl⟩ : rows = rows' ∧ [] = pivots := by simpa [run] using hrun
    rfl
  | cons u us ih =>
    obtain ⟨p, pivot, ps, _, _, rfl, htail⟩ := run_cons hrun
    rw [List.length_cons, List.length_cons, ih htail]

end Gauge

end Kirchhoff
