import Mathlib.Algebra.Field.Rat
import Kirchhoff.Proofs.Expr.Execution
import Kirchhoff.Proofs.Linear.Solution
import Kirchhoff.Generation.Outline

/-!
# Closed forms

The entries of a linear system mention no unknown, and neither does anything that an elimination
computes from them (`Gauge.run_within`). The solution therefore has, for each unknown in its order,
an equation with the unknown on its left and an expression in the other symbols on its right
(`Gauge.solve_isClosed`), whatever the gauge takes for zero.

So no unknown of a system is left out, and it makes no difference whether the equations of a
solution are run one after another or all at once (`solve_closedForms`).
-/

namespace Kirchhoff

open Kirchhoff.Expr

variable {α : Type} [Scalar α] {P : Symbol → Prop}

/-! ### Entries of rows -/

theorem forall_mem_zipWith {β γ δ : Type} {f : β → γ → δ} {Q : δ → Prop} {bs : List β}
    {cs : List γ} (h : ∀ b ∈ bs, ∀ c ∈ cs, Q (f b c)) : ∀ d ∈ List.zipWith f bs cs, Q d := by
  induction bs generalizing cs with
  | nil => simp
  | cons b bs ih =>
    cases cs with
    | nil => simp
    | cons c cs =>
      rw [List.zipWith_cons_cons, List.forall_mem_cons]
      refine ⟨h b (by simp) c (by simp), ih fun b hb c hc => ?_⟩
      exact h b (List.mem_cons_of_mem _ hb) c (List.mem_cons_of_mem _ hc)

namespace LinearRow

/-- Every symbol in the row has the property. -/
def Within (P : Symbol → Prop) (r : LinearRow α) : Prop :=
  ∀ e ∈ r.rhs :: r.coefficients, e.Within P

variable {r : LinearRow α}

omit [Scalar α] in
theorem Within.rhs (h : r.Within P) : r.rhs.Within P := h _ List.mem_cons_self

omit [Scalar α] in
theorem Within.mem_coefficients (h : r.Within P) {e : Expr α} (he : e ∈ r.coefficients) :
    e.Within P := h e (List.mem_cons_of_mem _ he)

theorem Within.coefficient (h : r.Within P) (j : ℕ) : (r.coefficient j).Within P := by
  unfold LinearRow.coefficient
  cases hj : r.coefficients[j]? with
  | none => exact within_number 0
  | some e => exact h.mem_coefficients (List.mem_of_getElem? hj)

end LinearRow

namespace Gauge

variable {g : Gauge α} {c p : ℕ} {us : List Symbol} {rows rows' : List (PivotRow α)}
  {pivots : List ℕ}

theorem within_reduce {old delta : Expr α} (hold : old.Within P) (hdelta : delta.Within P) :
    (g.reduce old delta).Within P := by
  have hminus : (old - delta).Within P := within_plus hold (within_negate hdelta)
  unfold reduce
  dsimp only
  split
  · exact hminus
  · split
    · exact within_number 0
    · exact hminus

/-! ### An elimination brings no symbol in -/

/-- What an elimination computes mentions only symbols of the two rows. -/
theorem within_eliminate {pivot row : PivotRow α} (hpivot : pivot.Within P) (hrow : row.Within P) :
    (g.eliminate pivot c row).Within P := by
  have hratio : (row.coefficient c / pivot.coefficient c).Within P :=
    within_over (hrow.coefficient c) (hpivot.coefficient c)
  unfold eliminate
  split
  · exact hrow
  · -- The coefficients are the same, whether or not the right-hand side changes.
    dsimp only
    have hcoefficients : ∀ e ∈ List.zipWith (fun old (kc : Expr α × ℕ) =>
        if kc.2 = c then .number 0 else if kc.1.isZero then old
        else g.reduce old (row.coefficient c / pivot.coefficient c * kc.1))
        row.coefficients pivot.coefficients.zipIdx, e.Within P := by
      refine forall_mem_zipWith fun old hold kc hkc => ?_
      have hk : kc.1.Within P :=
        hpivot.mem_coefficients (List.mem_of_getElem? (List.mem_zipIdx_iff_getElem?.1 hkc))
      have hold := hrow.mem_coefficients hold
      split_ifs
      · exact within_number 0
      · exact hold
      · exact within_reduce hold (within_times hratio hk)
    split
    · exact List.forall_mem_cons.2 ⟨hrow.rhs, hcoefficients⟩
    · exact List.forall_mem_cons.2
        ⟨within_reduce hrow.rhs (within_times hratio hpivot.rhs), hcoefficients⟩

theorem within_clearColumn {pivot : PivotRow α} (hpivot : pivot.Within P)
    (h : ∀ row ∈ rows, row.Within P) : ∀ row ∈ g.clearColumn rows c p pivot, row.Within P := by
  intro row' hrow'
  obtain ⟨r, hr, rfl⟩ := List.mem_mapIdx.1 hrow'
  have hrow := h _ (List.getElem_mem hr)
  split
  · exact hrow
  · exact within_eliminate hpivot hrow

/-- A run brings no symbol in. -/
theorem run_within (hrun : g.run us c rows = .ok (rows', pivots))
    (h : ∀ row ∈ rows, row.Within P) : ∀ row ∈ rows', row.Within P := by
  induction us generalizing c rows pivots with
  | nil =>
    obtain ⟨rfl, -⟩ : rows = rows' ∧ [] = pivots := by simpa [run] using hrun
    exact h
  | cons u us ih =>
    obtain ⟨p, pivot, ps, -, hpivot, -, htail⟩ := run_cons hrun
    exact ih htail (within_clearColumn (h pivot (List.mem_of_getElem? hpivot)) h)

/-- The pivots of a run are positions of rows. -/
theorem run_pivots_lt (hrun : g.run us c rows = .ok (rows', pivots)) :
    ∀ p ∈ pivots, p < rows'.length := by
  suffices h : rows'.length = rows.length ∧ ∀ p ∈ pivots, p < rows.length from
    fun p hp => h.1 ▸ h.2 p hp
  induction us generalizing c rows pivots with
  | nil =>
    obtain ⟨rfl, rfl⟩ : rows = rows' ∧ [] = pivots := by simpa [run] using hrun
    simp
  | cons u us ih =>
    obtain ⟨p, pivot, ps, -, hpivot, rfl, htail⟩ := run_cons hrun
    have hlength : (g.clearColumn rows c p pivot).length = rows.length := by simp [clearColumn]
    obtain ⟨hrows', hps⟩ := ih htail
    rw [hlength] at hrows' hps
    exact ⟨hrows', List.forall_mem_cons.2 ⟨(List.getElem?_eq_some_iff.1 hpivot).1, hps⟩⟩

/-! ### Solutions -/

/-- A solution has one equation for each unknown, in their order, and no right-hand side mentions
an unknown. -/
structure IsClosed (unknowns : List Symbol) (solution : List (Equation α)) : Prop where
  lhs : solution.map (·.lhs) = unknowns.map .symbol
  rhs : ∀ q ∈ solution, q.rhs.Within (IsOther unknowns)

theorem within_solutionOf {u : Symbol} (hp : p < rows.length) (h : ∀ row ∈ rows, row.Within P) :
    (solutionOf rows u c p).rhs.Within P := by
  have hrow := h _ (List.getElem_mem hp)
  rw [solutionOf, List.getElem?_eq_getElem hp]
  exact within_over hrow.rhs (hrow.coefficient c)

/-- A solution mentions what the rows of the system mention. -/
theorem solve_within {equations solution : List (Equation α)} {unknowns : List Symbol}
    {system : List (LinearRow α)} (hsystem : linearSystem equations unknowns = .ok system)
    (h : g.solve equations unknowns = .ok solution) (hrows : ∀ row ∈ system, row.Within P) :
    ∀ q ∈ solution, q.rhs.Within P := by
  obtain ⟨rows, pivots, hrun, -, rfl⟩ := solve_cases hsystem h
  intro q hq
  obtain ⟨c, hc, rfl⟩ := List.mem_mapIdx.1 hq
  have hpivot : ((unknowns.zip pivots)[c]).2 ∈ pivots := (List.of_mem_zip (List.getElem_mem hc)).2
  exact within_solutionOf (run_pivots_lt hrun _ hpivot)
    (run_within hrun (List.forall_mem_map.2 hrows))

/-- Only linear equations are solved. -/
theorem exists_linearSystem_of_solve {equations solution : List (Equation α)}
    {unknowns : List Symbol} (h : g.solve equations unknowns = .ok solution) :
    ∃ system, linearSystem equations unknowns = .ok system := by
  cases hsystem : linearSystem equations unknowns with
  | error e => simp [solve, hsystem, bind, Except.bind] at h
  | ok system => exact ⟨system, rfl⟩

/-- Whatever the gauge takes for zero, a solution is closed. -/
theorem solve_isClosed {equations solution : List (Equation α)} {unknowns : List Symbol}
    (h : g.solve equations unknowns = .ok solution) : IsClosed unknowns solution := by
  obtain ⟨system, hsystem⟩ := exists_linearSystem_of_solve h
  refine ⟨?_, solve_within hsystem h fun row hrow => ?_⟩
  · obtain ⟨rows, pivots, hrun, -, rfl⟩ := solve_cases hsystem h
    exact lhs_solution (run_length hrun)
  · obtain ⟨q, -, hq⟩ := exists_left_of_forall₂ (linearSystem_rows hsystem) hrow
    exact q.linearRow?_within hq

variable {unknowns : List Symbol} {solution : List (Equation α)}

omit [Scalar α] in
theorem IsClosed.exists_lhs (h : IsClosed unknowns solution) {q : Equation α} (hq : q ∈ solution) :
    ∃ u ∈ unknowns, q.lhs = .symbol u := by
  have hmem : q.lhs ∈ unknowns.map .symbol := h.lhs ▸ List.mem_map_of_mem hq
  obtain ⟨u, hu, heq⟩ := List.mem_map.1 hmem
  exact ⟨u, hu, heq.symm⟩

omit [Scalar α] in
theorem IsClosed.lhs_mem (h : IsClosed unknowns solution) {q : Equation α} (hq : q ∈ solution)
    {s : Symbol} (hs : q.lhs = .symbol s) : s ∈ unknowns := by
  obtain ⟨u, hu, heq⟩ := h.exists_lhs hq
  rw [hs] at heq
  cases heq
  exact hu

omit [Scalar α] in
/-- No unknown is left out. -/
theorem IsClosed.isResolved (h : IsClosed unknowns solution) {u : Symbol} (hu : u ∈ unknowns) :
    isResolved solution u = true := by
  have hmem : Expr.symbol u ∈ solution.map (·.lhs) := h.lhs ▸ List.mem_map_of_mem hu
  obtain ⟨q, hq, hlhs⟩ := List.mem_map.1 hmem
  refine List.any_eq_true.2 ⟨q, hq, ?_⟩
  rw [hlhs]
  exact Symbol.beq_iff.2 rfl

/-- The equations of a solution may be run one after another. -/
theorem IsClosed.run_eq (h : IsClosed unknowns solution) (ρ : Environment α) :
    ρ.run solution = ρ.runAtOnce solution :=
  ρ.run_eq_runAtOnce (fun _ hq _ hs => h.lhs_mem hq hs) h.rhs

end Gauge

/-! ### Systems -/

/-- A system that is solved by elimination has the equations of the elimination. -/
theorem System.solve_gaussJordan (s : System α) (σ : Substitution α) (tolerance : α)
    (probe : Symbol → α) :
    s.solve (gaussJordan tolerance probe) σ =
      match gaussJordan tolerance probe (s.substituted σ) s.unknowns with
      | .error e => .error (.solver e)
      | .ok equations => .ok
        { equations, support := s.support.map σ.applyEquation, auxiliaries := s.auxiliaries } := by
  unfold System.solve
  cases hsolver : gaussJordan tolerance probe (s.substituted σ) s.unknowns with
  | error e => rfl
  | ok equations =>
    have hclosed := Gauge.solve_isClosed hsolver
    have hnone : (s.unknowns.find? fun u => !isResolved equations u) = none :=
      List.find?_eq_none.2 fun u hu => by simp [hclosed.isResolved hu]
    simp only [hnone]

/-- **Solutions are closed forms.** Whatever an elimination takes for zero, its solution has one
equation for each unknown, in their order and with the unknown on its left; no right-hand side
mentions an unknown, and running the equations one after another does what running them all at once
does. A system that is solved by elimination therefore misses no unknown, and the assignments of its
class may be run in their order. -/
theorem solve_closedForms :
    (∀ (g : Gauge α) (equations solution : List (Equation α)) (unknowns : List Symbol),
      g.solve equations unknowns = .ok solution →
      solution.map (·.lhs) = unknowns.map .symbol ∧
      (∀ q ∈ solution, ∀ u ∈ unknowns, q.rhs.mentions u = false) ∧
      ∀ ρ : Environment α, ρ.run solution = ρ.runAtOnce solution) ∧
    ∀ (tolerance : α) (probe : Symbol → α) (s : System α) (σ : Substitution α),
      (∀ u, s.solve (gaussJordan tolerance probe) σ ≠ .error (.missingSolution u)) ∧
      ∀ solution, s.solve (gaussJordan tolerance probe) σ = .ok solution →
        ∀ (name : String) (matrix : Option (Matrix α)) (ρ : Environment α),
          let assignments := (Outline.ofSystem name s solution matrix).assignments
          ρ.run assignments = ρ.runAtOnce assignments := by
  refine ⟨fun g equations solution unknowns h => ?_, fun tolerance probe s σ => ?_⟩
  · have hclosed := g.solve_isClosed h
    exact ⟨hclosed.lhs, fun q hq u hu => mentions_eq_false (hclosed.rhs q hq) hu, hclosed.run_eq⟩
  · have heq := s.solve_gaussJordan σ tolerance probe
    cases hsolver : gaussJordan tolerance probe (s.substituted σ) s.unknowns with
    | error e =>
      rw [hsolver] at heq
      exact ⟨fun u => by simp [heq], fun solution h => by simp [heq] at h⟩
    | ok equations =>
      rw [hsolver] at heq
      refine ⟨fun u => by simp [heq], fun solution h name matrix ρ => ?_⟩
      rw [heq] at h
      obtain rfl := Except.ok.inj h
      exact (Gauge.solve_isClosed hsolver).run_eq ρ

/-- A sum and a difference of two unknowns that have old values when the class is run. -/
theorem solve_closedForms_sum :
    let x : Symbol := ⟨0, "x"⟩
    let y : Symbol := ⟨1, "y"⟩
    let a : Expr Rat := .symbol ⟨2, "a"⟩
    let b : Expr Rat := .symbol ⟨3, "b"⟩
    let equations := [⟨.symbol x + .symbol y, a⟩, ⟨.symbol x - .symbol y, b⟩]
    let system : System Rat :=
      ⟨.empty, equations, [], [], [x, y], [], [], [], ⟨⟨4, "ts"⟩, none⟩, [], []⟩
    let probe (s : Symbol) : Rat := s.id + 1
    let g : Gauge Rat := .probing (1 / 1000) probe [x, y]
    let solution := (g.solve equations [x, y]).toOption.getD []
    let assignments := (Outline.ofSystem "Sum" system ⟨solution, [], []⟩ none).assignments
    let ρ : Environment Rat := .ofIds fun i => some (2 * i)
    (∀ q ∈ solution, ∀ u ∈ [x, y], q.rhs.mentions u = false) ∧
      system.solve (gaussJordan (1 / 1000) probe) .empty = .ok ⟨solution, [], []⟩ ∧
      ρ.run assignments = ρ.runAtOnce assignments ∧
      (ρ.run assignments).symbol x = some 5 ∧ (ρ.run assignments).symbol y = some (-1) := by
  intro x y a b equations system probe g solution assignments ρ
  have hsolve : g.solve equations [x, y] = .ok solution := eq_ok_getD (by decide +kernel)
  obtain ⟨-, hrhs, -⟩ := solve_closedForms.1 g equations solution [x, y] hsolve
  have hsystem : system.solve (gaussJordan (1 / 1000) probe) .empty = .ok ⟨solution, [], []⟩ := by
    have hsolver : gaussJordan (1 / 1000) probe (system.substituted .empty) system.unknowns =
      .ok solution := hsolve
    rw [System.solve_gaussJordan, hsolver]
    rfl
  have hrun := (solve_closedForms.2 (1 / 1000) probe system .empty).2 _ hsystem "Sum" none ρ
  exact ⟨hrhs, hsystem, hrun, by decide +kernel, by decide +kernel⟩

end Kirchhoff
