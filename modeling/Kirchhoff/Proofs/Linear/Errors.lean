import Kirchhoff.Proofs.Linear.Numbers
import Kirchhoff.Proofs.Linear.Simulation

/-!
# Errors under a tolerance

An elimination with a tolerance may report an error although there is exactly one solution: it may
drop a coefficient or a right-hand side other than zero as negligible, or leave a column without a
pivot because the coefficients in it are too small for their rows (`gaussJordan_misreports`). An
error that none of this came before is truthful (`gaussJordan_errors`). Only rows that are not used
count: what is dropped in a row after it was a pivot makes no error.

Coefficients are eliminated as if there were no right-hand sides (`Gauge.isSimulation_homogeneous`),
so what is dropped of the right-hand sides makes no system singular.
-/

namespace Kirchhoff

open Kirchhoff.Expr

/-- The row with zero as its right-hand side. -/
def PivotRow.homogeneous (r : PivotRow Rat) : PivotRow Rat :=
  { r with rhs := .number 0, scale := 0 }

theorem LinearRow.IsNumeric.homogeneous {r : PivotRow Rat} (h : r.IsNumeric) :
    r.homogeneous.IsNumeric :=
  List.forall_mem_cons.2 ⟨⟨0, rfl⟩, fun _ he => h.mem_coefficients he⟩

/-! ### Telling errors apart -/

deriving instance DecidableEq for Symbol

instance (e : SolverError Rat) (u : Symbol) : Decidable (e = .singular u) :=
  match e with
  | .singular u' => decidable_of_iff (u' = u) (by simp)
  | .nonLinear _ _ => .isFalse nofun
  | .inconsistent _ _ => .isFalse nofun

instance (e : SolverError Rat) (i : ℕ) (v : Rat) : Decidable (e = .inconsistent i (.number v)) :=
  match e with
  | .inconsistent i' (.number v') => decidable_of_iff (i' = i ∧ v' = v) (by simp)
  | .inconsistent _ (.symbol _) => .isFalse nofun
  | .inconsistent _ (.add _) => .isFalse nofun
  | .inconsistent _ (.mul _) => .isFalse nofun
  | .inconsistent _ (.pow _ _) => .isFalse nofun
  | .inconsistent _ (.call _ _) => .isFalse nofun
  | .nonLinear _ _ => .isFalse nofun
  | .singular _ => .isFalse nofun

instance {β : Type} (result : Except (SolverError Rat) β) (e : SolverError Rat)
    [h : ∀ e', Decidable (e' = e)] : Decidable (result = .error e) :=
  match result with
  | .error e' => decidable_of_iff (e' = e) (by simp)
  | .ok _ => .isFalse nofun

namespace Gauge

variable {g : Gauge Rat} {c n : ℕ} {us : List Symbol} {rows rows' : List (PivotRow Rat)}
  {s : Stage Rat} {A A' : ℕ → ℕ → Rat} {B : ℕ → Rat} {ρ : Environment Rat}

/-! ### What a tolerance loses -/

/-- A coefficient of the row other than zero is dropped when the pivot row eliminates an unknown. -/
def DropsCoefficient (g : Gauge Rat) (pivot : PivotRow Rat) (c : ℕ) (row : PivotRow Rat) : Prop :=
  (row.coefficient c).isZero = false ∧ ∃ k < pivot.coefficients.length, k ≠ c ∧
    (pivot.coefficient k).isZero = false ∧
    g.Neglects (row.coefficient k) (row.coefficient c / pivot.coefficient c * pivot.coefficient k)

instance (pivot : PivotRow Rat) (c : ℕ) (row : PivotRow Rat) :
    Decidable (g.DropsCoefficient pivot c row) :=
  inferInstanceAs (Decidable (_ ∧ _))

/-- A right-hand side other than zero is dropped when the pivot row eliminates an unknown. -/
def DropsRhs (g : Gauge Rat) (pivot : PivotRow Rat) (c : ℕ) (row : PivotRow Rat) : Prop :=
  (row.coefficient c).isZero = false ∧ pivot.rhs.isZero = false ∧
    g.Neglects row.rhs (row.coefficient c / pivot.coefficient c * pivot.rhs)

instance (pivot : PivotRow Rat) (c : ℕ) (row : PivotRow Rat) :
    Decidable (g.DropsRhs pivot c row) :=
  inferInstanceAs (Decidable (_ ∧ _))

/-- At the stage, the pivot row and one of the other rows that are not used are as described. -/
def Stage.HasElimination (g : Gauge Rat) (s : Stage Rat)
    (P : PivotRow Rat → ℕ → PivotRow Rat → Prop) : Prop :=
  ∃ p ∈ g.pivot? s.rows s.column, ∃ pivot ∈ s.rows[p]?, ∃ row ∈ s.rows.eraseIdx p,
    row.isUsed = false ∧ P pivot s.column row

instance (P : PivotRow Rat → ℕ → PivotRow Rat → Prop) [∀ pivot c row, Decidable (P pivot c row)] :
    Decidable (s.HasElimination g P) :=
  inferInstanceAs (Decidable (∃ p ∈ g.pivot? s.rows s.column, ∃ pivot ∈ s.rows[p]?,
    ∃ row ∈ s.rows.eraseIdx p, row.isUsed = false ∧ P pivot s.column row))

/-- At the stage, a coefficient other than zero is dropped in a row that is not used. -/
def Stage.DropsCoefficient (g : Gauge Rat) (s : Stage Rat) : Prop :=
  s.HasElimination g g.DropsCoefficient

/-- At the stage, a right-hand side other than zero is dropped in a row that is not used. -/
def Stage.DropsRhs (g : Gauge Rat) (s : Stage Rat) : Prop :=
  s.HasElimination g g.DropsRhs

/-- The stage has no pivot, although its column is not zero in all rows that are not used. -/
def Stage.PassesOver (g : Gauge Rat) (s : Stage Rat) : Prop :=
  g.pivot? s.rows s.column = none ∧
    ∃ row ∈ s.rows, row.isUsed = false ∧ (row.coefficient s.column).isZero = false

instance : Decidable (s.DropsCoefficient g) := inferInstanceAs (Decidable (s.HasElimination _ _))

instance : Decidable (s.DropsRhs g) := inferInstanceAs (Decidable (s.HasElimination _ _))

instance : Decidable (s.PassesOver g) := inferInstanceAs (Decidable (_ ∧ _))

/-- A stage of numbers at which nothing is dropped is faithful in the rows that are not used. -/
theorem Stage.isFaithful_of_keeps {ρ : Environment Rat} (hnumeric : ∀ row ∈ s.rows, row.IsNumeric)
    (hcoefficients : ¬ s.DropsCoefficient g) (hrhs : ¬ s.DropsRhs g) :
    s.IsFaithful (· = false) ρ g := by
  intro p hp pivot hpivot
  constructor
  · obtain ⟨v, hv⟩ := (hnumeric pivot (List.mem_of_getElem? hpivot)).coefficient s.column
    have hzero := isZero_of_pivot? hp hpivot
    rw [hv, isZero_number, beq_eq_false_iff_ne] at hzero
    simpa [hv] using hzero
  · intro r row hrow hr hunused
    have hother : row ∈ s.rows.eraseIdx p := List.mem_eraseIdx_iff_getElem?.2 ⟨r, hr, hrow⟩
    refine fun hz => ⟨fun k hk hkc hkz hneglects => ?_, fun hbz hneglects => ?_⟩
    · exact absurd ⟨p, hp, pivot, hpivot, row, hother, hunused, hz, k, hk, hkc, hkz, hneglects⟩
        hcoefficients
    · exact absurd ⟨p, hp, pivot, hpivot, row, hother, hunused, hz, hbz, hneglects⟩ hrhs

/-! ### Systems without right-hand sides -/

/-- The coefficients of an elimination do not depend on the right-hand sides. -/
theorem eliminate_homogeneous (pivot row : PivotRow Rat) :
    g.eliminate pivot.homogeneous c row.homogeneous = (g.eliminate pivot c row).homogeneous := by
  have hcoefficient (r : PivotRow Rat) (j : ℕ) : r.homogeneous.coefficient j = r.coefficient j :=
    rfl
  have hzero (r : PivotRow Rat) : r.homogeneous.rhs.isZero = true := rfl
  unfold eliminate
  simp only [hcoefficient, hzero]
  split_ifs <;> rfl

/-- The second row is the first one with zero as its right-hand side. -/
def IsHomogeneous (_ : ℕ) (row row' : PivotRow Rat) : Prop := row' = row.homogeneous

theorem isSimulation_homogeneous : g.IsSimulation IsHomogeneous where
  relative h := by
    obtain rfl := h
    rfl
  used h := by
    obtain rfl := h
    rfl
  eliminate hpivot _ h := by
    obtain ⟨rfl, rfl⟩ := And.intro hpivot h
    exact eliminate_homogeneous _ _

theorem matches_homogeneous (rows : List (PivotRow Rat)) :
    Matches IsHomogeneous rows (rows.map PivotRow.homogeneous) := by
  intro r
  rw [List.getElem?_map]
  cases rows[r]? with
  | none => exact .none
  | some row => exact .some rfl

theorem reads_homogeneous (h : Reads ρ n rows A B) :
    Reads ρ n (rows.map PivotRow.homogeneous) A 0 := by
  intro r row' hrow' _
  rw [List.getElem?_map, Option.map_eq_some_iff] at hrow'
  obtain ⟨row, hrow, rfl⟩ := hrow'
  obtain ⟨hlength, hvalues⟩ := h r row hrow trivial
  exact ⟨hlength, hvalues.coefficient, rfl⟩

/-- What is dropped of the coefficients without the right-hand sides is dropped with them. -/
theorem Stage.DropsCoefficient.of_homogeneous {s' : Stage Rat} (h : s'.DropsCoefficient g)
    (hcolumn : s.column = s'.column) (hmatches : Matches IsHomogeneous s.rows s'.rows) :
    s.DropsCoefficient g := by
  obtain ⟨p, hp, pivot', hpivot', row', hrow', hunused, hdrops⟩ := h
  obtain ⟨r, hr, hrow'⟩ := List.mem_eraseIdx_iff_getElem?.1 hrow'
  obtain ⟨pivot, hpivot, rfl⟩ := hmatches.exists_left hpivot'
  obtain ⟨row, hrow, rfl⟩ := hmatches.exists_left hrow'
  rw [← hcolumn] at hp hdrops
  rw [isSimulation_homogeneous.pivot?_eq hmatches] at hp
  exact ⟨p, hp, pivot, hpivot, row, List.mem_eraseIdx_iff_getElem?.2 ⟨r, hr, hrow⟩, hunused,
    hdrops⟩

theorem Stage.not_dropsRhs_of_homogeneous {s' : Stage Rat}
    (hmatches : Matches IsHomogeneous s.rows s'.rows) : ¬ s'.DropsRhs g := by
  rintro ⟨p, -, pivot', hpivot', -, -, -, -, hzero, -⟩
  obtain ⟨pivot, -, rfl⟩ := hmatches.exists_left hpivot'
  cases hzero

theorem run_homogeneous {pivots : List ℕ} (h : g.run us c rows = .ok (rows', pivots)) :
    g.run us c (rows.map PivotRow.homogeneous) =
      .ok (rows'.map PivotRow.homogeneous, pivots) := by
  obtain ⟨e, he, -⟩ | ⟨ends, ends', ps, hends, hends', hmatches⟩ :=
    isSimulation_homogeneous.run us c (matches_homogeneous rows)
  · cases h.symm.trans he
  obtain ⟨rfl, rfl⟩ : rows' = ends ∧ pivots = ps := by simpa using h.symm.trans hends
  obtain rfl : ends' = rows'.map PivotRow.homogeneous := by
    refine List.ext_getElem? fun r => ?_
    rw [List.getElem?_map]
    exact hmatches.getElem?_eq id r
  exact hends'

/-- If no coefficient is dropped, nothing is dropped without the right-hand sides. -/
theorem isFaithful_homogeneous (hg : g.MeasuresNumbers) (hnumeric : ∀ row ∈ rows, row.IsNumeric)
    (hkeeps : ∀ s ∈ g.stages us c rows, ¬ s.DropsCoefficient g) :
    ∀ s ∈ g.stages us c (rows.map PivotRow.homogeneous), s.IsFaithful (· = false) ρ g := by
  intro s' hs'
  obtain ⟨s, hs, hcolumn, hrows⟩ := exists_left_of_forall₂
    (isSimulation_homogeneous.stages us c (matches_homogeneous rows)) hs'
  have hhomogeneous : ∀ row ∈ rows.map PivotRow.homogeneous, row.IsNumeric :=
    List.forall_mem_map.2 fun row hrow => (hnumeric row hrow).homogeneous
  exact Stage.isFaithful_of_keeps (isNumeric_stages hg hhomogeneous s' hs')
    (fun hdrops => hkeeps s hs (hdrops.of_homogeneous hcolumn hrows))
    (Stage.not_dropsRhs_of_homogeneous hrows)

/-! ### Truthful errors -/

/-- If a run fails, and no stage dropped a coefficient or passed over one, then a column depends on
those before it. -/
theorem exists_isCombination_of_error (hg : g.MeasuresNumbers) {e : SolverError Rat}
    (hrun : g.run us 0 rows = .error e) (hreads : Reads ρ us.length rows A B)
    (hstart : ∀ row ∈ rows, row.isUsed = false) (hnumeric : ∀ row ∈ rows, row.IsNumeric)
    (hkeeps : ∀ s ∈ g.stages us 0 rows, ¬ s.DropsCoefficient g ∧ ¬ s.PassesOver g) :
    ∃ k < us.length, IsCombination A rows.length k := by
  obtain ⟨k, u, ends, pivots, hu, -, htake, hnone⟩ := run_error hrun
  have hk : k < us.length := (List.getElem?_eq_some_iff.1 hu).1
  rw [stages_of_take hk htake hnone, List.forall_mem_append, List.forall_mem_singleton] at hkeeps
  obtain ⟨hbefore, -, hpassed⟩ := hkeeps
  -- The run up to the column without a pivot, without the right-hand sides.
  obtain ⟨A', B', hto, hreads'⟩ := run_sweepsTo (S := (· = false)) rfl (run_homogeneous htake)
    (isFaithful_homogeneous hg hnumeric fun s hs => (hbefore s hs).1)
    ((reads_homogeneous hreads).imp fun _ _ => trivial)
  have hlength : pivots.length = k := by simpa [hk.le] using run_length htake
  subst hlength
  refine ⟨_, hk, ?_⟩
  rw [← List.length_map (f := PivotRow.homogeneous)]
  refine (hto.isCombination_iff hk).1 (hto.isCombination_of_rest fun r hr hp => ?_)
  obtain ⟨row', hrow'⟩ : ∃ row', (ends.map PivotRow.homogeneous)[r]? = some row' :=
    ⟨_, List.getElem?_eq_getElem (hto.length ▸ hr)⟩
  have hunused : row'.isUsed = false := by
    rw [hto.isUsed_eq (List.forall_mem_map.2 hstart) hrow']
    exact decide_eq_false hp
  have hvalue := (hreads' r row' hrow' hunused).2.coefficient pivots.length
  obtain ⟨row, hrow, rfl⟩ := Option.map_eq_some_iff.1 (List.getElem?_map ▸ hrow')
  have hzero : (row.coefficient pivots.length).isZero = true := by
    by_contra hne
    exact hpassed ⟨hnone, row, List.mem_of_getElem? hrow, hunused, by simpa using hne⟩
  exact Option.some.inj (hvalue.symm.trans (eval_of_isZero hzero))

/-- If a run ends with a row that contradicts, and no stage dropped a coefficient or a right-hand
side, then nothing satisfies the rows. -/
theorem not_satisfies_of_contradiction (hg : g.MeasuresNumbers) {pivots : List ℕ} {r : ℕ}
    {e : Expr Rat} (hrun : g.run us 0 rows = .ok (rows', pivots))
    (hcontradiction : g.contradiction? rows' = some (r, e)) (hreads : Reads ρ us.length rows A B)
    (hstart : ∀ row ∈ rows, row.isUsed = false) (hnumeric : ∀ row ∈ rows, row.IsNumeric)
    (hkeeps : ∀ s ∈ g.stages us 0 rows, ¬ s.DropsCoefficient g ∧ ¬ s.DropsRhs g) (x : ℕ → Rat) :
    ¬ Satisfies A B rows.length us.length x := by
  have hfaithful : ∀ s ∈ g.stages us 0 rows, s.IsFaithful (· = false) ρ g := fun s hs =>
    Stage.isFaithful_of_keeps (isNumeric_stages hg hnumeric s hs) (hkeeps s hs).1 (hkeeps s hs).2
  obtain ⟨A', B', hto, hreads'⟩ :=
    run_sweepsTo (S := (· = false)) rfl hrun hfaithful (hreads.imp fun _ _ => trivial)
  obtain ⟨row, hrow, hunused, hzero, -⟩ := contradiction?_eq_some hcontradiction
  have hp : r ∉ pivots := by simpa [hto.isUsed_eq hstart hrow] using hunused
  have hr : r < rows.length := hto.length ▸ (List.getElem?_eq_some_iff.1 hrow).1
  refine hto.not_satisfies (run_length hrun) hr hp ?_ x
  obtain ⟨v, hv⟩ := (isNumeric_run hg hrun hnumeric row (List.mem_of_getElem? hrow)).rhs
  have hvalue := (hreads' r row hrow hunused).2.rhs
  rw [hv, eval_number, Option.some.injEq] at hvalue
  rw [hv, isZero_number, beq_eq_false_iff_ne, hvalue] at hzero
  exact hzero

end Gauge

/-- **Errors are truthful up to the tolerance.** Equations whose sides are built from numbers and
distinct unknowns, by sums, by multiples and by quotients by numbers other than zero, are never
called nonlinear. If they are called singular, there is not exactly one solution, unless the
elimination dropped a coefficient other than zero as negligible, or passed over the coefficients in
the column without a pivot as too small for their rows. If they are called inconsistent, there is
no solution, unless the elimination dropped a coefficient or a right-hand side other than zero. All
this is about rows that are not used: what is dropped in a row that was a pivot does not matter. -/
theorem gaussJordan_errors (tolerance : Rat) (probe : Symbol → Rat)
    {equations : List (Equation Rat)} {unknowns : List Symbol}
    (hunknowns : (unknowns.map (·.id)).Nodup) (h : ∀ q ∈ equations, q.IsNumeric unknowns) :
    ∃ system, linearSystem equations unknowns = .ok system ∧
      let g := Gauge.probing tolerance probe unknowns
      let stages := g.stages unknowns 0 (system.map g.start)
      let result := gaussJordan tolerance probe equations unknowns
      (∀ u, result = .error (.singular u) →
        (∀ s ∈ stages, ¬ s.DropsCoefficient g ∧ ¬ s.PassesOver g) →
        ¬ ∃! x, IsSolution equations unknowns x) ∧
      (∀ i e, result = .error (.inconsistent i e) →
        (∀ s ∈ stages, ¬ s.DropsCoefficient g ∧ ¬ s.DropsRhs g) →
        ∀ x, ¬ IsSolution equations unknowns x) ∧
      ∀ i q, result ≠ .error (.nonLinear i q) := by
  obtain ⟨system, hsystem⟩ := exists_linearSystem_of_isNumeric h
  refine ⟨system, hsystem, ?_⟩
  intro g stages result
  have hg : g.MeasuresNumbers := Gauge.measuresNumbers_probing tolerance probe unknowns
  have hreads := reads_coefficientAt (g := g) hunknowns h hsystem
  have hstart : ∀ row ∈ system.map g.start, row.isUsed = false := Gauge.isUsed_start
  have hnumeric : ∀ row ∈ system.map g.start, row.IsNumeric :=
    List.forall_mem_map.2 (isNumeric_linearSystem h hsystem)
  have hresult : result = g.solve equations unknowns := rfl
  rw [Gauge.solve_eq hsystem] at hresult
  simp only [isSolution_iff hunknowns h hsystem, ← List.length_map (f := g.start)]
  cases hrun : g.run unknowns 0 (system.map g.start) with
  | error e =>
    rw [hrun] at hresult
    obtain ⟨-, u, -, -, -, rfl, -, -⟩ := Gauge.run_error hrun
    refine ⟨fun _ _ hkeeps => ?_, by simp [hresult], by simp [hresult]⟩
    obtain ⟨k, hk, hcombination⟩ :=
      Gauge.exists_isCombination_of_error hg hrun hreads hstart hnumeric hkeeps
    exact hcombination.not_existsUnique hk
  | ok ends =>
    rw [hrun] at hresult
    dsimp only at hresult
    cases hcontradiction : g.contradiction? ends.1 with
    | none =>
      rw [hcontradiction] at hresult
      simp [hresult]
    | some re =>
      rw [hcontradiction] at hresult
      refine ⟨by simp [hresult], fun _ _ _ hkeeps x => ?_, by simp [hresult]⟩
      exact Gauge.not_satisfies_of_contradiction hg hrun hcontradiction hreads hstart hnumeric
        hkeeps _

/-- Equations of one line are singular, and equations for two values of an unknown inconsistent. -/
theorem gaussJordan_errors_parallel :
    let x : Symbol := ⟨0, "x"⟩
    let y : Symbol := ⟨1, "y"⟩
    let probe (s : Symbol) : Rat := s.id + 1
    let line : List (Equation Rat) := [⟨.symbol x + .symbol y, .number 3⟩,
      ⟨.number 2 * .symbol x, .number 6 - .number 2 * .symbol y⟩]
    let values : List (Equation Rat) :=
      [⟨.symbol x, .number 1⟩, ⟨.symbol x / .number 2, .number 1⟩]
    gaussJordan (1 / 10 ^ 9) probe line [x, y] = .error (.singular y) ∧
      (¬ ∃! v, IsSolution line [x, y] v) ∧
      gaussJordan (1 / 10 ^ 9) probe values [x] = .error (.inconsistent 1 (.number (1 / 2))) ∧
      ∀ v, ¬ IsSolution values [x] v := by
  intro x y probe line values
  have hline : ∀ q ∈ line, q.IsNumeric [x, y] := by
    refine List.forall_mem_cons.2 ⟨?_, List.forall_mem_singleton.2 ?_⟩
    · exact ⟨.plus (.unknown (by simp)) (.unknown (by simp)), .constant ⟨3, rfl⟩⟩
    · exact ⟨.multiple ⟨2, rfl⟩ (.unknown (by simp)),
        .minus (.constant ⟨6, rfl⟩) (.multiple ⟨2, rfl⟩ (.unknown (by simp)))⟩
  have hvalues : ∀ q ∈ values, q.IsNumeric [x] := by
    refine List.forall_mem_cons.2 ⟨?_, List.forall_mem_singleton.2 ?_⟩
    · exact ⟨.unknown (by simp), .constant ⟨1, rfl⟩⟩
    · exact ⟨.divide (.unknown (by simp)) ⟨2, two_ne_zero, rfl⟩, .constant ⟨1, rfl⟩⟩
  have hsingular : gaussJordan (1 / 10 ^ 9) probe line [x, y] = .error (.singular y) := by
    decide +kernel
  have hinconsistent : gaussJordan (1 / 10 ^ 9) probe values [x] =
      .error (.inconsistent 1 (.number (1 / 2))) := by decide +kernel
  refine ⟨hsingular, ?_, hinconsistent, ?_⟩
  · obtain ⟨system, hsystem, htruthful, -⟩ :=
      gaussJordan_errors (1 / 10 ^ 9) probe (by decide) hline
    obtain rfl := Except.ok.inj (hsystem.symm.trans (eq_ok_getD (by decide +kernel)))
    exact htruthful y hsingular (by decide +kernel)
  · obtain ⟨system, hsystem, -, htruthful, -⟩ :=
      gaussJordan_errors (1 / 10 ^ 9) probe (by decide) hvalues
    obtain rfl := Except.ok.inj (hsystem.symm.trans (eq_ok_getD (by decide +kernel)))
    exact htruthful 1 _ hinconsistent (by decide +kernel)

/-- If the elimination with tolerance zero succeeds, there is exactly one solution. -/
theorem existsUnique_isSolution {probe : Symbol → Rat} {equations solution : List (Equation Rat)}
    {unknowns : List Symbol} (hunknowns : (unknowns.map (·.id)).Nodup)
    (h : ∀ q ∈ equations, q.IsNumeric unknowns)
    (hok : gaussJordan 0 probe equations unknowns = .ok solution) :
    ∃! x, IsSolution equations unknowns x := by
  obtain ⟨system, hsystem⟩ := exists_linearSystem_of_isNumeric h
  have hfree : ∀ row ∈ system, row.Within NoSymbol := fun row hrow e he => by
    obtain ⟨v, rfl⟩ := isNumeric_linearSystem h hsystem row hrow e he
    exact within_number v
  have hdecides := (Gauge.isExact_probing probe unknowns).decides hsystem
    (reads_coefficientAt hunknowns h hsystem) hfree
  simp only [isSolution_iff hunknowns h hsystem]
  exact hdecides.ok_iff.1 ⟨solution, hok⟩

/-- With the tolerance that is used when none is given, each of these four systems has exactly one
solution and is reported as an error. In the first one the coefficient of `x` is passed over, in the
second and the third one a coefficient of `y` is dropped, and in the last one a right-hand side. -/
theorem gaussJordan_misreports :
    let x : Symbol := ⟨0, "x"⟩
    let y : Symbol := ⟨1, "y"⟩
    let probe (s : Symbol) : Rat := s.id + 1
    let k : Rat := 10 ^ 10
    let multiple (v : Rat) (u : Symbol) : Expr Rat := .number v * .symbol u
    let row : Equation Rat := ⟨multiple k x + multiple k y, .number 0⟩
    let next : Equation Rat := ⟨multiple k x + multiple (k + 1) y, .number 1⟩
    let unit : Equation Rat := ⟨.symbol y, .number 1⟩
    let systems : List (List (Equation Rat) × SolverError Rat) :=
      [([⟨.symbol x + multiple k y, .number k⟩, unit], .singular x),
        ([row, next], .singular y),
        ([row, next, unit], .inconsistent 1 (.number 1)),
        ([⟨.symbol x, .number k⟩, ⟨.symbol x + .symbol y, .number (k + 1)⟩, unit],
          .inconsistent 2 (.number 1))]
    ([x, y].map (·.id)).Nodup ∧ ∀ system ∈ systems, (∀ q ∈ system.1, q.IsNumeric [x, y]) ∧
      (∃! v, IsSolution system.1 [x, y] v) ∧
      gaussJordan (1 / 10 ^ 9) probe system.1 [x, y] = .error system.2 := by
  intro x y probe k multiple row next unit systems
  have hnodup : ([x, y].map (·.id)).Nodup := by decide
  have hx : (Expr.symbol x).IsAffine [x, y] (fun c => ∃ v : Rat, c = .number v)
      fun c => ∃ v, v ≠ 0 ∧ c = .number v := .unknown (by simp)
  have hy : (Expr.symbol y).IsAffine [x, y] (fun c => ∃ v : Rat, c = .number v)
      fun c => ∃ v, v ≠ 0 ∧ c = .number v := .unknown (by simp)
  have hrow : row.IsNumeric [x, y] :=
    ⟨.plus (.multiple ⟨k, rfl⟩ hx) (.multiple ⟨k, rfl⟩ hy), .constant ⟨0, rfl⟩⟩
  have hnext : next.IsNumeric [x, y] :=
    ⟨.plus (.multiple ⟨k, rfl⟩ hx) (.multiple ⟨k + 1, rfl⟩ hy), .constant ⟨1, rfl⟩⟩
  have hunit : unit.IsNumeric [x, y] := ⟨hy, .constant ⟨1, rfl⟩⟩
  have hnumeric : ∀ system ∈ systems, ∀ q ∈ system.1, q.IsNumeric [x, y] := by
    simp only [systems, List.forall_mem_cons]
    exact ⟨⟨⟨.plus hx (.multiple ⟨k, rfl⟩ hy), .constant ⟨k, rfl⟩⟩, hunit, List.forall_mem_nil _⟩,
      ⟨hrow, hnext, List.forall_mem_nil _⟩, ⟨hrow, hnext, hunit, List.forall_mem_nil _⟩,
      ⟨⟨hx, .constant ⟨k, rfl⟩⟩, ⟨.plus hx hy, .constant ⟨k + 1, rfl⟩⟩, hunit,
        List.forall_mem_nil _⟩, List.forall_mem_nil _⟩
  have hok : ∀ system ∈ systems, (gaussJordan 0 probe system.1 [x, y]).toOption.isSome := by
    decide +kernel
  have herror : ∀ system ∈ systems,
      gaussJordan (1 / 10 ^ 9) probe system.1 [x, y] = .error system.2 := by
    simp only [systems, List.forall_mem_cons]
    exact ⟨by decide +kernel, by decide +kernel, by decide +kernel, by decide +kernel,
      List.forall_mem_nil _⟩
  refine ⟨hnodup, fun system hsystem => ⟨hnumeric system hsystem, ?_, herror system hsystem⟩⟩
  exact existsUnique_isSolution hnodup (hnumeric system hsystem) (eq_ok_getD (hok system hsystem))

end Kirchhoff
