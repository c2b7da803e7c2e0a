import Kirchhoff.Proofs.Linear.Form

/-!
# The solution of a linear system

At the end of a run each pivot row holds one unknown, and any other row none. The value that a
pivot row gives its unknown (`valueOf`) therefore satisfies the row, and a row that no column
used is satisfied as soon as its right-hand side is zero. Together with what a run keeps this
gives the capstone `solve_satisfies`.
-/

namespace Kirchhoff.Gauge

open Kirchhoff.Expr

variable {ρ : Environment Rat} {g : Gauge Rat} {n c p : ℕ}

/-! ### Rows at the end of a run -/

/-- The values of the unknowns after a run. -/
def valueOf (A : ℕ → ℕ → Rat) (B : ℕ → Rat) (pivots : List ℕ) (j : ℕ) : Rat :=
  B (pivots.getD j 0) / A (pivots.getD j 0) j

section

variable {rows rows' : List (PivotRow Rat)} {pivots : List ℕ} {A A' : ℕ → ℕ → Rat}
  {B B' : ℕ → Rat}

theorem SweepsTo.eq_zero (h : SweepsTo n 0 rows A B rows' pivots A' B') {r j : ℕ}
    (hj : j < pivots.length) (hr : r ≠ pivots[j]) : A' r j = 0 := by
  have hcleared := h.cleared j pivots[j] (List.getElem?_eq_getElem hj)
  rw [zero_add] at hcleared
  exact hcleared.2 r hr

/-- A pivot row holds its unknown alone. -/
theorem SweepsTo.sum_of_pivot (h : SweepsTo n 0 rows A B rows' pivots A' B') {k : ℕ}
    (hk : pivots[k]? = some p) (x : ℕ → Rat) :
    ∑ j ∈ Finset.range pivots.length, A' p j * x j = A' p k * x k := by
  refine Finset.sum_eq_single k (fun j hj hjk => ?_) fun hk' => ?_
  · have hjn : j < pivots.length := Finset.mem_range.1 hj
    have hpj : p ≠ pivots[j] := by
      rintro rfl
      exact hjk (h.pivots_nodup.getElem_inj_iff.1 (List.getElem?_eq_some_iff.1 hk).2).symm
    rw [h.eq_zero hjn hpj, zero_mul]
  · exact absurd (Finset.mem_range.2 (List.getElem?_eq_some_iff.1 hk).1) hk'

/-- Any other row holds none of the unknowns with a pivot. -/
theorem SweepsTo.sum_of_rest (h : SweepsTo n 0 rows A B rows' pivots A' B') {r : ℕ}
    (hr : r ∉ pivots) (x : ℕ → Rat) :
    ∑ j ∈ Finset.range pivots.length, A' r j * x j = 0 := by
  refine Finset.sum_eq_zero fun j hj => ?_
  have hjn : j < pivots.length := Finset.mem_range.1 hj
  rw [h.eq_zero hjn (ne_of_mem_of_not_mem (List.getElem_mem hjn) hr).symm, zero_mul]

theorem SweepsTo.pivot_ne_zero (h : SweepsTo n 0 rows A B rows' pivots A' B') {k : ℕ}
    (hk : pivots[k]? = some p) : A' p k ≠ 0 := by
  simpa using (h.cleared k p hk).1

/-- The values that the pivot rows give for right-hand sides satisfy these rows. -/
theorem SweepsTo.sum_valueOf (h : SweepsTo n 0 rows A B rows' pivots A' B') (C : ℕ → Rat)
    (hp : p ∈ pivots) :
    ∑ j ∈ Finset.range pivots.length, A' p j * valueOf A' C pivots j = C p := by
  obtain ⟨k, hk⟩ := List.mem_iff_getElem?.1 hp
  rw [h.sum_of_pivot hk, valueOf, List.getD, hk]
  exact mul_div_cancel₀ (C p) (h.pivot_ne_zero hk)

/-- A right-hand side that is left over and accepted is zero. -/
theorem RunsTo.rhs_eq_zero (h : RunsTo ρ g n 0 rows A B rows' pivots A' B')
    (hstart : ∀ row ∈ rows, row.isUsed = false)
    (haccepted : g.contradiction? rows' = none) {r : ℕ} (hr : r < rows'.length) (hp : r ∉ pivots) :
    B' r = 0 := by
  have hrow' : rows'[r]? = some rows'[r] := List.getElem?_eq_getElem hr
  have hunused : rows'[r].isUsed = false := by simp [h.isUsed_eq hstart hrow', hp]
  have hrhs : rows'[r].rhs.eval ρ = some 0 := by
    cases hz : rows'[r].rhs.isZero with
    | true => exact eval_of_isZero hz
    | false =>
      refine h.rest _ (List.getElem_mem hr) hunused hz fun hlt => ?_
      have hnone := List.find?_eq_none.1 (Option.map_eq_none_iff.1 haccepted) (rows'[r], r)
        (List.mem_zipIdx_iff_getElem?.2 hrow')
      simp [hunused, hz, hlt] at hnone
  exact Option.some.inj ((h.reads r _ hrow' trivial).2.rhs.symm.trans hrhs)

/-- If nothing contradicts, the values of a run satisfy the rows that it started from. -/
theorem RunsTo.satisfies_valueOf (h : RunsTo ρ g n 0 rows A B rows' pivots A' B')
    (hn : pivots.length = n) (hstart : ∀ row ∈ rows, row.isUsed = false)
    (haccepted : g.contradiction? rows' = none) :
    ∀ r < rows.length, ∑ j ∈ Finset.range n, A r j * valueOf A' B' pivots j = B r := by
  refine h.satisfies _ fun r hr => ?_
  rw [← hn]
  by_cases hp : r ∈ pivots
  · exact h.sum_valueOf B' hp
  · rw [h.sum_of_rest hp, h.rhs_eq_zero hstart haccepted (h.length ▸ hr) hp]

end

theorem linearSystem_length {equations : List (Equation Rat)} {unknowns : List Symbol}
    {system : List (LinearRow Rat)} (h : linearSystem equations unknowns = .ok system) :
    ∀ row ∈ system, row.coefficients.length = unknowns.length := by
  intro row hrow
  obtain ⟨q, -, hq⟩ := exists_left_of_forall₂ (linearSystem_rows h) hrow
  exact linearRow?_length hq

theorem solve_cases {α : Type} [Scalar α] {g : Gauge α} {equations solution : List (Equation α)}
    {unknowns : List Symbol} {system : List (LinearRow α)}
    (hsystem : linearSystem equations unknowns = .ok system)
    (h : g.solve equations unknowns = .ok solution) :
    ∃ rows pivots, g.run unknowns 0 (system.map g.start) = .ok (rows, pivots) ∧
      g.contradiction? rows = none ∧
      solution = (unknowns.zip pivots).mapIdx fun c (u, p) => solutionOf rows u c p := by
  unfold solve at h
  rw [hsystem] at h
  cases hrun : g.run unknowns 0 (system.map g.start) with
  | error e => simp [hrun, bind, Except.bind] at h
  | ok result =>
    obtain ⟨rows, pivots⟩ := result
    simp only [hrun, bind, Except.bind] at h
    split at h
    · cases h
    · rename_i hnone
      exact ⟨rows, pivots, rfl, hnone, (Except.ok.inj h).symm⟩

theorem reads_start {n : ℕ} {system : List (LinearRow Rat)}
    (hlength : ∀ row ∈ system, row.coefficients.length = n)
    (hdefined : ∀ row ∈ system, row.IsDefined ρ) :
    ∃ A B, Reads ρ n (system.map g.start) A B := by
  have hvalues (r : ℕ) : ∃ a b, ∀ row, system[r]? = some row → row.HasValues ρ a b := by
    cases hr : system[r]? with
    | none => exact ⟨0, 0, by simp⟩
    | some row =>
      obtain ⟨a, b, hab⟩ := (hdefined row (List.mem_of_getElem? hr)).hasValues
      exact ⟨a, b, fun row' hrow' => Option.some.inj hrow' ▸ hab⟩
  choose A B hAB using hvalues
  refine ⟨A, B, fun r row hrow _ => ?_⟩
  rw [List.getElem?_map, Option.map_eq_some_iff] at hrow
  obtain ⟨row₀, hrow₀, rfl⟩ := hrow
  exact ⟨hlength row₀ (List.mem_of_getElem? hrow₀), hAB r row₀ hrow₀⟩

theorem solutionOf_lhs {α : Type} [Scalar α] (rows : List (PivotRow α)) (u : Symbol) (c p : ℕ) :
    (solutionOf rows u c p).lhs = .symbol u := rfl

theorem RunsTo.eval_solutionOf {rows rows' : List (PivotRow Rat)} {pivots : List ℕ}
    {A A' : ℕ → ℕ → Rat} {B B' : ℕ → Rat} {u : Symbol}
    (h : RunsTo ρ g n 0 rows A B rows' pivots A' B') (hp : pivots[c]? = some p) :
    (solutionOf rows' u c p).rhs.eval ρ = some (valueOf A' B' pivots c) := by
  obtain ⟨row, hrow, _⟩ := h.pivots_unused p (List.mem_of_getElem? hp)
  have hlt : p < rows'.length := h.length ▸ (List.getElem?_eq_some_iff.1 hrow).1
  have hrow' : rows'[p]? = some rows'[p] := List.getElem?_eq_getElem hlt
  obtain ⟨_, hvalues⟩ := h.reads p _ hrow' trivial
  have hne : A' p c ≠ 0 := by simpa using (h.cleared c p hp).1
  rw [solutionOf, hrow', valueOf, List.getD, hp]
  exact eval_over hvalues.rhs (hvalues.coefficient c) hne

/-- The right-hand sides of a solution have the values of the run. -/
theorem RunsTo.evalAll_solution {rows rows' : List (PivotRow Rat)} {pivots : List ℕ}
    {A A' : ℕ → ℕ → Rat} {B B' : ℕ → Rat} {unknowns : List Symbol}
    (h : RunsTo ρ g n 0 rows A B rows' pivots A' B') (hn : pivots.length = unknowns.length) :
    evalAll ρ (((unknowns.zip pivots).mapIdx fun c (u, p) => solutionOf rows' u c p).map (·.rhs)) =
      some ((List.range unknowns.length).map (valueOf A' B' pivots)) := by
  have hlength : (((unknowns.zip pivots).mapIdx fun c (u, p) => solutionOf rows' u c p).map
      (·.rhs)).length = unknowns.length := by simp [hn]
  rw [← hlength]
  refine evalAll_of_getElem fun c e he => ?_
  obtain ⟨q, hq, rfl⟩ := Option.map_eq_some_iff.1 (List.getElem?_map ▸ he)
  obtain ⟨⟨u, p⟩, hup, rfl⟩ := Option.map_eq_some_iff.1 (List.getElem?_mapIdx ▸ hq)
  exact h.eval_solutionOf (List.getElem?_zip_eq_some.1 hup).2

theorem lhs_solution {α : Type} [Scalar α] {rows : List (PivotRow α)} {pivots : List ℕ}
    {unknowns : List Symbol} (hn : pivots.length = unknowns.length) :
    ((unknowns.zip pivots).mapIdx fun c (u, p) => solutionOf rows u c p).map (·.lhs) =
      unknowns.map .symbol :=
  List.ext_getElem (by simp [hn]) fun c _ _ => by simp [solutionOf_lhs]

theorem isUsed_start {α : Type} [Scalar α] {g : Gauge α} {system : List (LinearRow α)} :
    ∀ row ∈ system.map g.start, row.isUsed = false :=
  List.forall_mem_map.2 fun _ _ => rfl

/-- **The closed forms of an elimination solve the system.** Wherever the entries of the system
have values and the judgements of the gauge are right, the right-hand sides of the solution have
values that satisfy every row, also a row that no column used as its pivot. -/
theorem solve_satisfies {equations solution : List (Equation Rat)} {unknowns : List Symbol}
    {system : List (LinearRow Rat)} (hsystem : linearSystem equations unknowns = .ok system)
    (hsolve : g.solve equations unknowns = .ok solution)
    (hdefined : ∀ row ∈ system, row.IsDefined ρ)
    (hfaithful : Faithful ρ g unknowns 0 (system.map g.start)) :
    solution.map (·.lhs) = unknowns.map .symbol ∧
      ∃ xs, evalAll ρ (solution.map (·.rhs)) = some xs ∧
        ∀ row ∈ system, row.Holds ρ (fun j => xs.getD j 0) := by
  obtain ⟨rows, pivots, hrun, haccepted, rfl⟩ := solve_cases hsystem hsolve
  have hn : pivots.length = unknowns.length := run_length hrun
  have hlength := linearSystem_length hsystem
  obtain ⟨A, B, hreads⟩ := reads_start (g := g) hlength hdefined
  obtain ⟨A', B', hto⟩ := run_runsTo hrun hfaithful hreads
  have hsatisfied := hto.satisfies_valueOf hn isUsed_start haccepted
  refine ⟨lhs_solution hn, _, hto.evalAll_solution hn, fun row hrow => ?_⟩
  obtain ⟨r, hr⟩ := List.mem_iff_getElem?.1 hrow
  have hstart : (system.map g.start)[r]? = some (g.start row) := by
    rw [List.getElem?_map, hr]
    rfl
  refine ⟨A r, B r, (hreads r _ hstart trivial).2, ?_⟩
  rw [← hsatisfied r (List.getElem?_eq_some_iff.1 hstart).1, hlength row hrow]
  refine Finset.sum_congr rfl fun j hj => ?_
  have hjn : j < unknowns.length := Finset.mem_range.1 hj
  simp [hjn]

/-- What the first of these rows leaves of the second is zero without being written as zero. -/
theorem solve_satisfies_squares :
    let x : Symbol := ⟨0, "x"⟩
    let a : Expr Rat := .symbol ⟨1, "a"⟩
    let b : Expr Rat := .symbol ⟨2, "b"⟩
    let c : Expr Rat := .symbol ⟨3, "c"⟩
    let equations := [⟨(a + b) * (a - b) * .symbol x, c⟩,
      ⟨(a ^ (.number 2 : Expr Rat) - b ^ (.number 2 : Expr Rat)) * .symbol x, c⟩]
    let g : Gauge Rat := .probing (1 / 1000) (fun s => s.id + 1) [x]
    let ρ : Environment Rat := .ofIds fun i => if i = 0 then none else some (4 - i)
    let system := (linearSystem equations [x]).toOption.getD []
    let solution := (g.solve equations [x]).toOption.getD []
    evalAll ρ (solution.map (·.rhs)) = some [1 / 5] ∧ system.length = 2 ∧
      ∀ row ∈ system, row.Holds ρ (fun j => [1 / 5].getD j 0) := by
  intro x a b c equations g ρ system solution
  have hsystem : linearSystem equations [x] = .ok system := eq_ok_getD (by decide +kernel)
  have hsolve : g.solve equations [x] = .ok solution := eq_ok_getD (by decide +kernel)
  have hdefined : ∀ row ∈ system, row.IsDefined ρ := by decide +kernel
  have hvalue : evalAll ρ (solution.map (·.rhs)) = some [1 / 5] := by decide +kernel
  obtain ⟨_, xs, hxs, hrows⟩ := solve_satisfies hsystem hsolve hdefined (by decide +kernel)
  obtain rfl := Option.some.inj (hxs.symm.trans hvalue)
  exact ⟨hvalue, by decide +kernel, hrows⟩

end Kirchhoff.Gauge
