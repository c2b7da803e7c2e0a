import Kirchhoff.Proofs.Linear.Elimination

/-!
# Two eliminations side by side

Whether a row may become a pivot, and how good a pivot it is, decides the course of an elimination;
its other entries only go along. So if rows at the same positions are related, and related rows are
equally good pivots and stay related when a column is cleared (`Gauge.IsSimulation`), then two runs
take the same pivots, or fail at the same unknown, and leave related rows
(`Gauge.IsSimulation.run`).
-/

namespace Kirchhoff.Gauge

variable {g : Gauge Rat} {R : ℕ → PivotRow Rat → PivotRow Rat → Prop}
  {rows rows' : List (PivotRow Rat)} {c p : ℕ}

/-- Rows at the same positions are related. -/
def Matches (R : ℕ → PivotRow Rat → PivotRow Rat → Prop) (rows rows' : List (PivotRow Rat)) :
    Prop :=
  ∀ r, Option.Rel (R r) rows[r]? rows'[r]?

theorem Matches.exists_right (h : Matches R rows rows') {r : ℕ} {row : PivotRow Rat}
    (hrow : rows[r]? = some row) : ∃ row', rows'[r]? = some row' ∧ R r row row' := by
  have hr := h r
  rw [hrow] at hr
  generalize rows'[r]? = o' at hr
  cases hr with
  | some hr => exact ⟨_, rfl, hr⟩

theorem Matches.exists_left (h : Matches R rows rows') {r : ℕ} {row' : PivotRow Rat}
    (hrow' : rows'[r]? = some row') : ∃ row, rows[r]? = some row ∧ R r row row' := by
  have hr := h r
  rw [hrow'] at hr
  generalize rows[r]? = o at hr
  cases hr with
  | some hr => exact ⟨_, rfl, hr⟩

/-- If a row is related to its image only, then the rows on the right are the images. -/
theorem Matches.getElem?_eq {f : ℕ → PivotRow Rat → PivotRow Rat} (h : Matches R rows rows')
    (hR : ∀ {r : ℕ} {row row' : PivotRow Rat}, R r row row' → row' = f r row) (r : ℕ) :
    rows'[r]? = rows[r]?.map (f r) := by
  generalize rows[r]? = o, rows'[r]? = o', h r = hr
  cases hr with
  | none => rfl
  | some hr => exact congrArg some (hR hr)

/-- Related rows are equally good pivots, and stay related when one of them becomes the pivot or is
eliminated by related pivots. -/
structure IsSimulation (g : Gauge Rat) (R : ℕ → PivotRow Rat → PivotRow Rat → Prop) : Prop where
  relative {c r : ℕ} {row row' : PivotRow Rat} (h : R r row row') :
    g.relative? c row' = g.relative? c row
  used {r : ℕ} {row row' : PivotRow Rat} (h : R r row row') :
    R r { row with isUsed := true } { row' with isUsed := true }
  eliminate {c p r : ℕ} {x : Rat} {pivot pivot' row row' : PivotRow Rat} (hpivot : R p pivot pivot')
    (hx : g.relative? c pivot = some x) (h : R r row row') :
    R r (g.eliminate pivot c row) (g.eliminate pivot' c row')

/-- The pivot of a column depends on how good pivots the rows are, and on nothing else. -/
theorem pivot?_congr (h : rows'.map (g.relative? c) = rows.map (g.relative? c)) :
    g.pivot? rows' c = g.pivot? rows c := by
  have hpivot (rows : List (PivotRow Rat)) : g.pivot? rows c =
      ((rows.map (g.relative? c)).zipIdx.foldl (fun best xr => betterPivot best xr.2 xr.1) none).map
        (·.1) := by
    rw [List.zipIdx_map, List.foldl_map]
    rfl
  rw [hpivot, hpivot, h]

namespace IsSimulation

theorem pivot?_eq (hR : g.IsSimulation R) (h : Matches R rows rows') :
    g.pivot? rows' c = g.pivot? rows c := by
  refine pivot?_congr (List.ext_getElem? fun r => ?_)
  rw [List.getElem?_map, List.getElem?_map]
  generalize rows[r]? = o, rows'[r]? = o', h r = hr
  cases hr with
  | none => rfl
  | some hr => exact congrArg some (hR.relative hr)

theorem clearColumn (hR : g.IsSimulation R) (h : Matches R rows rows') {pivot pivot' : PivotRow Rat}
    {x : Rat} (hpivot : R p pivot pivot') (hx : g.relative? c pivot = some x) :
    Matches R (g.clearColumn rows c p pivot) (g.clearColumn rows' c p pivot') := by
  intro r
  rw [getElem?_clearColumn, getElem?_clearColumn]
  generalize rows[r]? = o, rows'[r]? = o', h r = hr
  cases hr with
  | none => exact .none
  | some hr =>
    refine .some ?_
    split
    · exact hR.used hr
    · exact hR.eliminate hpivot hx hr

/-- Two runs from related rows take the same pivots and leave related rows, or fail alike. -/
theorem run (hR : g.IsSimulation R) (us : List Symbol) (c : ℕ) (h : Matches R rows rows') :
    (∃ e, g.run us c rows = .error e ∧ g.run us c rows' = .error e) ∨
    ∃ ends ends' pivots, g.run us c rows = .ok (ends, pivots) ∧
      g.run us c rows' = .ok (ends', pivots) ∧ Matches R ends ends' := by
  induction us generalizing c rows rows' with
  | nil => exact .inr ⟨rows, rows', [], rfl, rfl, h⟩
  | cons u us ih =>
    have hpivot? := hR.pivot?_eq (c := c) h
    cases hp : g.pivot? rows c with
    | none => exact .inl ⟨.singular u, by simp [Gauge.run, hp], by simp [Gauge.run, hpivot?, hp]⟩
    | some p =>
      obtain ⟨pivot, x, hpivot, hx⟩ := relative?_of_pivot? hp
      obtain ⟨pivot', hpivot', hrelated⟩ := h.exists_right hpivot
      rw [run_cons_eq hp hpivot, run_cons_eq (hpivot?.trans hp) hpivot']
      obtain ⟨e, he, he'⟩ | ⟨ends, ends', ps, hends, hends', hmatches⟩ :=
        ih (c + 1) (hR.clearColumn h hrelated hx)
      · exact .inl ⟨e, by rw [he]; rfl, by rw [he']; rfl⟩
      · exact .inr ⟨ends, ends', p :: ps, by rw [hends]; rfl, by rw [hends']; rfl, hmatches⟩

/-- Two runs from related rows come to the same columns, with related rows there. -/
theorem stages (hR : g.IsSimulation R) (us : List Symbol) (c : ℕ) (h : Matches R rows rows') :
    List.Forall₂ (fun s s' => s.column = s'.column ∧ Matches R s.rows s'.rows)
      (g.stages us c rows) (g.stages us c rows') := by
  induction us generalizing c rows rows' with
  | nil => exact .nil
  | cons u us ih =>
    have hpivot? := hR.pivot?_eq (c := c) h
    cases hp : g.pivot? rows c with
    | none => simpa [Gauge.stages, hpivot?, hp] using h
    | some p =>
      obtain ⟨pivot, x, hpivot, hx⟩ := relative?_of_pivot? hp
      obtain ⟨pivot', hpivot', hrelated⟩ := h.exists_right hpivot
      rw [stages_cons hp hpivot, stages_cons (hpivot?.trans hp) hpivot']
      exact .cons ⟨rfl, h⟩ (ih (c + 1) (hR.clearColumn h hrelated hx))

end IsSimulation

end Kirchhoff.Gauge
