import Kirchhoff.Proofs.Linear.Affine
import Kirchhoff.Proofs.Linear.Exact

/-!
# Unique solvability

With tolerance zero an elimination decides whether a system of numbers has exactly one solution
(`gaussJordan_decides`).

An elimination keeps the kernel of the matrix, and with it which columns are linear combinations of
the columns before them (`Gauge.SweepsTo.isCombination_iff`). When it ends, a column with a pivot is
none, since its pivot row is zero before it. A column without a pivot is zero in all rows that no
column used, so that the pivot rows give the factors of a combination
(`Gauge.SweepsTo.isCombination_of_rest`).

So a run fails at the first column that depends on those before it. A run that does not fail leaves
the values of its pivot rows as the only solution there may be, and a row that contradicts it if
there is none. `Gauge.Decides` lists these three ends.
-/

namespace Kirchhoff

open Kirchhoff.Expr

/-! ### Columns -/

/-- The column at a position is a linear combination of the columns before it, in the given number
of rows. -/
def IsCombination (A : ℕ → ℕ → Rat) (m k : ℕ) : Prop :=
  ∃ y : ℕ → Rat, ∀ r < m, A r k = ∑ j ∈ Finset.range k, y j * A r j

/-- The numbers satisfy the rows. -/
def Satisfies (A : ℕ → ℕ → Rat) (B : ℕ → Rat) (m n : ℕ) (x : ℕ → Rat) : Prop :=
  ∀ r < m, ∑ j ∈ Finset.range n, A r j * x j = B r

variable {A A' : ℕ → ℕ → Rat} {B B' : ℕ → Rat} {m n k p : ℕ}

/-- A combination is an element of the kernel that ends at the column. -/
theorem isCombination_iff_kernel (hk : k < n) : IsCombination A m k ↔
    ∃ x : ℕ → Rat, x k = -1 ∧ (∀ j, k < j → x j = 0) ∧ Satisfies A 0 m n x := by
  have hsum {x : ℕ → Rat} (hx : ∀ j, k < j → x j = 0) (r : ℕ) :
      ∑ j ∈ Finset.range n, A r j * x j = ∑ j ∈ Finset.range k, A r j * x j + A r k * x k := by
    rw [← Finset.sum_range_succ]
    refine (Finset.sum_subset (Finset.range_mono hk) fun j _ hj => ?_).symm
    rw [hx j (by simpa [Nat.succ_le_iff] using hj), mul_zero]
  constructor
  · rintro ⟨y, hy⟩
    have hrest (j : ℕ) (hj : k < j) : (if j < k then y j else if j = k then -1 else 0) = 0 := by
      rw [if_neg (by omega), if_neg (by omega)]
    refine ⟨fun j => if j < k then y j else if j = k then -1 else 0, by simp, hrest, fun r hr => ?_⟩
    have hfactors (j : ℕ) (hj : j ∈ Finset.range k) :
        A r j * (if j < k then y j else if j = k then -1 else 0) = y j * A r j := by
      rw [if_pos (Finset.mem_range.1 hj), mul_comm]
    rw [hsum hrest, hy r hr, Finset.sum_congr rfl hfactors]
    simp
  · rintro ⟨x, hxk, hrest, hx⟩
    refine ⟨x, fun r hr => ?_⟩
    have hzero := hx r hr
    rw [hsum hrest, hxk, mul_neg_one, ← sub_eq_add_neg] at hzero
    rw [← sub_eq_zero.1 hzero]
    exact Finset.sum_congr rfl fun j _ => mul_comm _ _

/-- With a column that depends on those before it, no solution is the only one. -/
theorem IsCombination.exists_other (h : IsCombination A m k) (hk : k < n) {x : ℕ → Rat}
    (hx : Satisfies A B m n x) : ∃ x', Satisfies A B m n x' ∧ x' k ≠ x k := by
  obtain ⟨y, hyk, -, hy⟩ := (isCombination_iff_kernel hk).1 h
  refine ⟨fun j => x j + y j, fun r hr => ?_, by simp [hyk]⟩
  simp only [mul_add, Finset.sum_add_distrib]
  rw [hx r hr, hy r hr, Pi.zero_apply, add_zero]

namespace Gauge

/-! ### Columns at the end of a run -/

section

variable {rows rows' : List (PivotRow Rat)} {pivots : List ℕ}

theorem SweepsTo.satisfies_iff_satisfies (h : SweepsTo n 0 rows A B rows' pivots A' B')
    {x : ℕ → Rat} : Satisfies A' B' rows.length n x ↔ Satisfies A B rows.length n x := by
  simpa only [Satisfies, one_mul] using h.satisfies_iff 1 x

theorem SweepsTo.kernel_iff (h : SweepsTo n 0 rows A B rows' pivots A' B') {x : ℕ → Rat} :
    Satisfies A' 0 rows.length n x ↔ Satisfies A 0 rows.length n x := by
  simpa only [Satisfies, zero_mul, Pi.zero_apply] using h.satisfies_iff 0 x

/-- A run keeps which columns depend on those before them. -/
theorem SweepsTo.isCombination_iff (h : SweepsTo n 0 rows A B rows' pivots A' B') (hk : k < n) :
    IsCombination A' rows.length k ↔ IsCombination A rows.length k := by
  simp only [isCombination_iff_kernel hk, h.kernel_iff]

/-- A column with a pivot depends on no columns before it. -/
theorem SweepsTo.not_isCombination (h : SweepsTo n 0 rows A B rows' pivots A' B')
    (hk : k < pivots.length) : ¬ IsCombination A' rows.length k := by
  rintro ⟨y, hy⟩
  have hget : pivots[k]? = some pivots[k] := List.getElem?_eq_getElem hk
  obtain ⟨row, hrow, -⟩ := h.pivots_unused _ (List.getElem_mem hk)
  refine h.pivot_ne_zero hget ?_
  rw [hy _ (List.getElem?_eq_some_iff.1 hrow).1]
  refine Finset.sum_eq_zero fun j hj => ?_
  have hjk : j < k := Finset.mem_range.1 hj
  have hne : pivots[k] ≠ pivots[j] := fun heq => by
    have := h.pivots_nodup.getElem_inj_iff.1 heq
    omega
  rw [h.eq_zero (hjk.trans hk) hne, mul_zero]

/-- A column that is zero in all rows that no column used depends on the columns before it. -/
theorem SweepsTo.isCombination_of_rest (h : SweepsTo n 0 rows A B rows' pivots A' B')
    (hrest : ∀ r < rows.length, r ∉ pivots → A' r pivots.length = 0) :
    IsCombination A' rows.length pivots.length := by
  refine ⟨valueOf A' (fun r => A' r pivots.length) pivots, fun r hr => ?_⟩
  simp only [mul_comm (valueOf A' _ pivots _)]
  by_cases hp : r ∈ pivots
  · exact (h.sum_valueOf (fun r => A' r pivots.length) hp).symm
  · rw [h.sum_of_rest hp, hrest r hr hp]

/-- No other numbers than the values of a run satisfy the rows that it started from. -/
theorem SweepsTo.eq_valueOf (h : SweepsTo n 0 rows A B rows' pivots A' B')
    (hn : pivots.length = n) {x : ℕ → Rat} (hx : Satisfies A B rows.length n x) :
    ∀ j < n, x j = valueOf A' B' pivots j := by
  subst hn
  intro j hj
  have hget : pivots[j]? = some pivots[j] := List.getElem?_eq_getElem hj
  obtain ⟨row, hrow, -⟩ := h.pivots_unused _ (List.mem_of_getElem? hget)
  have hkept := h.satisfies_iff_satisfies.2 hx _ (List.getElem?_eq_some_iff.1 hrow).1
  rw [h.sum_of_pivot hget] at hkept
  rw [valueOf, List.getD, hget]
  exact (eq_div_iff (h.pivot_ne_zero hget)).2 ((mul_comm _ _).trans hkept)

/-- A row that no column used and whose right-hand side is not zero contradicts all numbers. -/
theorem SweepsTo.not_satisfies (h : SweepsTo n 0 rows A B rows' pivots A' B')
    (hn : pivots.length = n) {r : ℕ} (hr : r < rows.length) (hp : r ∉ pivots) (hB : B' r ≠ 0)
    (x : ℕ → Rat) : ¬ Satisfies A B rows.length n x := by
  intro hx
  have hkept := h.satisfies_iff_satisfies.2 hx r hr
  rw [← hn, h.sum_of_rest hp] at hkept
  exact hB hkept.symm

end

/-! ### The ends of an elimination -/

/-- How an elimination of numbers ends: with the only solution, at the first column that depends on
those before it, or with a contradiction when there is neither. -/
inductive Decides (ρ : Valuation Rat) (A : ℕ → ℕ → Rat) (B : ℕ → Rat) (m : ℕ)
    (unknowns : List Symbol) : Except (SolverError Rat) (List (Equation Rat)) → Prop
  | unique {solution : List (Equation Rat)} {x : ℕ → Rat}
    (hlhs : solution.map (·.lhs) = unknowns.map .symbol)
    (hrhs : evalAll ρ (solution.map (·.rhs)) = some ((List.range unknowns.length).map x))
    (hx : Satisfies A B m unknowns.length x)
    (honly : ∀ x', Satisfies A B m unknowns.length x' → ∀ j < unknowns.length, x' j = x j)
    (hindependent : ∀ k < unknowns.length, ¬ IsCombination A m k) :
    Decides ρ A B m unknowns (.ok solution)
  | singular {k : ℕ} {u : Symbol} (hu : unknowns[k]? = some u) (hk : IsCombination A m k)
    (hfirst : ∀ j < k, ¬ IsCombination A m j) : Decides ρ A B m unknowns (.error (.singular u))
  | inconsistent {i : ℕ} {e : Expr Rat} (hnone : ∀ x, ¬ Satisfies A B m unknowns.length x)
    (hindependent : ∀ k < unknowns.length, ¬ IsCombination A m k) :
    Decides ρ A B m unknowns (.error (.inconsistent i e))

theorem solve_eq {α : Type} [Scalar α] {g : Gauge α} {equations : List (Equation α)}
    {unknowns : List Symbol} {system : List (LinearRow α)}
    (hsystem : linearSystem equations unknowns = .ok system) :
    g.solve equations unknowns =
      match g.run unknowns 0 (system.map g.start) with
      | .error e => .error e
      | .ok (rows, pivots) =>
        match g.contradiction? rows with
        | some (r, residual) => .error (.inconsistent r residual)
        | none => .ok ((unknowns.zip pivots).mapIdx fun c (u, p) => solutionOf rows u c p) := by
  unfold solve
  simp only [hsystem, bind, Except.bind]
  cases g.run unknowns 0 (system.map g.start) <;> rfl

theorem contradiction?_eq_some {α : Type} [Scalar α] {g : Gauge α} {rows : List (PivotRow α)}
    {r : ℕ} {e : Expr α} (h : g.contradiction? rows = some (r, e)) :
    ∃ row, rows[r]? = some row ∧ row.isUsed = false ∧ row.rhs.isZero = false ∧
      g.tolerance * row.scale < g.magnitude row.rhs := by
  obtain ⟨⟨row, r'⟩, hfind, heq⟩ := Option.map_eq_some_iff.1 h
  cases heq
  have hrow := List.find?_some hfind
  simp only [Bool.and_eq_true, Bool.not_eq_true', decide_eq_true_eq] at hrow
  obtain ⟨⟨hunused, hzero⟩, hlt⟩ := hrow
  exact ⟨row, List.mem_zipIdx_iff_getElem?.1 (List.mem_of_find?_eq_some hfind), hunused, hzero, hlt⟩

section

variable {ρ : Environment Rat} {g : Gauge Rat} {equations : List (Equation Rat)}
  {unknowns : List Symbol} {system : List (LinearRow Rat)}

/-- **An exact elimination decides.** -/
theorem IsExact.decides (hg : g.IsExact ρ)
    (hsystem : linearSystem equations unknowns = .ok system)
    (hreads : Reads ρ unknowns.length (system.map g.start) A B)
    (hfree : ∀ row ∈ system, row.Within NoSymbol) :
    Decides ρ A B system.length unknowns (g.solve equations unknowns) := by
  have hstart : ∀ row ∈ system.map g.start, row.Within NoSymbol := List.forall_mem_map.2 hfree
  have hlength : (system.map g.start).length = system.length := List.length_map _
  rw [solve_eq hsystem]
  cases hrun : g.run unknowns 0 (system.map g.start) with
  | error e =>
    -- The run up to the column without a pivot leaves this column zero in the unused rows.
    obtain ⟨k, u, rows', pivots, hu, rfl, htake, hnone⟩ := run_error hrun
    have hkn : k < unknowns.length := (List.getElem?_eq_some_iff.1 hu).1
    obtain ⟨A', B', hto⟩ := run_runsTo htake (hg.faithful _ hreads hstart) hreads
    have hk : pivots.length = k := by simpa [hkn.le] using run_length htake
    subst hk
    have hrest (r : ℕ) (hr : r < (system.map g.start).length) (hp : r ∉ pivots) :
        A' r pivots.length = 0 := by
      obtain ⟨row', hrow'⟩ : ∃ row', rows'[r]? = some row' :=
        ⟨_, List.getElem?_eq_getElem (hto.length ▸ hr)⟩
      rw [zero_add] at hnone
      refine hg.eq_zero_of_no_pivot hto.reads (run_within htake hstart) hkn hnone hrow' ?_
      simp [hto.isUsed_eq isUsed_start hrow', hp]
    rw [← hlength]
    refine .singular hu ((hto.isCombination_iff hkn).1 (hto.isCombination_of_rest hrest)) ?_
    exact fun j hj hcombination =>
      hto.not_isCombination hj ((hto.isCombination_iff (hj.trans hkn)).2 hcombination)
  | ok result =>
    obtain ⟨rows', pivots⟩ := result
    have hn : pivots.length = unknowns.length := run_length hrun
    obtain ⟨A', B', hto⟩ := run_runsTo hrun (hg.faithful _ hreads hstart) hreads
    have hindependent (k : ℕ) (hk : k < unknowns.length) :
        ¬ IsCombination A (system.map g.start).length k := fun hcombination =>
      hto.not_isCombination (hn.symm ▸ hk) ((hto.isCombination_iff hk).2 hcombination)
    dsimp only
    rw [← hlength]
    cases hcontradiction : g.contradiction? rows' with
    | none =>
      exact .unique (lhs_solution hn) (hto.evalAll_solution hn)
        (hto.satisfies_valueOf hn isUsed_start hcontradiction) (fun _ => hto.eq_valueOf hn)
        hindependent
    | some re =>
      obtain ⟨r, e⟩ := re
      obtain ⟨row', hrow', hunused, -, hlt⟩ := contradiction?_eq_some hcontradiction
      have hr : r < (system.map g.start).length :=
        hto.length ▸ (List.getElem?_eq_some_iff.1 hrow').1
      have hp : r ∉ pivots := by simpa [hto.isUsed_eq isUsed_start hrow'] using hunused
      have hB : B' r ≠ 0 := by
        have hrhs := (run_within hrun hstart row' (List.mem_of_getElem? hrow')).rhs
        rw [hg.tolerance, zero_mul, hg.magnitude hrhs (hto.reads r row' hrow' trivial).2.rhs] at hlt
        exact abs_pos.1 hlt
      exact .inconsistent (hto.not_satisfies hn hr hp hB) hindependent

end

/-! ### Reading the end -/

end Gauge

/-- Numbers at the first positions, and zero at all others. -/
def padded (x : Fin n → Rat) (j : ℕ) : Rat := if h : j < n then x ⟨j, h⟩ else 0

theorem padded_val (x : Fin n → Rat) (j : Fin n) : padded x j = x j := dif_pos j.2

theorem padded_of_lt (x : ℕ → Rat) {j : ℕ} (h : j < n) : padded (fun j : Fin n => x j) j = x j :=
  dif_pos h

theorem satisfies_padded_iff {x : ℕ → Rat} :
    Satisfies A B m n (padded fun j : Fin n => x j) ↔ Satisfies A B m n x := by
  have hsum (r : ℕ) : ∑ j ∈ Finset.range n, A r j * padded (fun j : Fin n => x j) j =
      ∑ j ∈ Finset.range n, A r j * x j :=
    Finset.sum_congr rfl fun j hj => by rw [padded_of_lt x (Finset.mem_range.1 hj)]
  simp only [Satisfies, hsum]

/-- With a column that depends on those before it, there is not exactly one solution. -/
theorem IsCombination.not_existsUnique (h : IsCombination A m k) (hk : k < n) :
    ¬ ∃! x : Fin n → Rat, Satisfies A B m n (padded x) := by
  rintro ⟨x, hx, honly⟩
  obtain ⟨x', hx', hne⟩ := h.exists_other hk hx
  have heq := honly (fun j => x' j) (satisfies_padded_iff.2 hx')
  exact hne (by rw [← heq, padded_of_lt x' hk])

namespace Gauge.Decides

variable {ρ : Valuation Rat} {unknowns : List Symbol}
  {result : Except (SolverError Rat) (List (Equation Rat))}

/-- An elimination succeeds if and only if there is exactly one solution. -/
theorem ok_iff (h : Decides ρ A B m unknowns result) : (∃ solution, result = .ok solution) ↔
    ∃! x : Fin unknowns.length → Rat, Satisfies A B m unknowns.length (padded x) := by
  cases h with
  | @unique solution x _ _ hx honly _ =>
    refine iff_of_true ⟨solution, rfl⟩ ⟨fun j => x j, satisfies_padded_iff.2 hx, fun x' hx' => ?_⟩
    funext j
    exact (padded_val x' j).symm.trans (honly _ hx' j j.2)
  | singular hu hk _ =>
    exact iff_of_false (by simp) (hk.not_existsUnique (List.getElem?_eq_some_iff.1 hu).1)
  | inconsistent hnone _ =>
    exact iff_of_false (by simp) fun ⟨x, hx, _⟩ => hnone _ hx

/-- What an elimination returns is a solution. -/
theorem values {solution : List (Equation Rat)} (h : Decides ρ A B m unknowns (.ok solution)) :
    solution.map (·.lhs) = unknowns.map .symbol ∧
      ∃ x : Fin unknowns.length → Rat, Satisfies A B m unknowns.length (padded x) ∧
        evalAll ρ (solution.map (·.rhs)) = some (List.ofFn x) := by
  cases h with
  | @unique _ x hlhs hrhs hx _ _ =>
    refine ⟨hlhs, fun j => x j, satisfies_padded_iff.2 hx, hrhs.trans (congrArg some ?_)⟩
    exact List.ext_getElem (by simp) fun j _ _ => by simp

/-- An elimination names the first unknown whose column depends on those before it. -/
theorem singular_iff (h : Decides ρ A B m unknowns result) {u : Symbol} :
    result = .error (.singular u) ↔
      ∃ k, unknowns[k]? = some u ∧ IsCombination A m k ∧ ∀ j < k, ¬ IsCombination A m j := by
  have hnone (hindependent : ∀ k < unknowns.length, ¬ IsCombination A m k) :
      ¬ ∃ k, unknowns[k]? = some u ∧ IsCombination A m k ∧ ∀ j < k, ¬ IsCombination A m j :=
    fun ⟨k, hu, hk, _⟩ => hindependent k (List.getElem?_eq_some_iff.1 hu).1 hk
  cases h with
  | unique _ _ _ _ hindependent => exact iff_of_false (by simp) (hnone hindependent)
  | inconsistent _ hindependent => exact iff_of_false (by simp) (hnone hindependent)
  | @singular k v hv hk hfirst =>
    constructor
    · intro heq
      obtain rfl : v = u := by simpa using heq
      exact ⟨k, hv, hk, hfirst⟩
    · rintro ⟨k', hu, hk', hfirst'⟩
      obtain hlt | rfl | hlt := Nat.lt_trichotomy k k'
      · exact absurd hk (hfirst' k hlt)
      · rw [Option.some.inj (hv.symm.trans hu)]
      · exact absurd hk' (hfirst k' hlt)

/-- An elimination that neither succeeds nor is singular reports a contradiction, rightly. -/
theorem inconsistent_of_ne (h : Decides ρ A B m unknowns result)
    (hok : ∀ solution, result ≠ .ok solution) (hsingular : ∀ u, result ≠ .error (.singular u)) :
    (∃ i e, result = .error (.inconsistent i e)) ∧ ∀ x, ¬ Satisfies A B m unknowns.length x := by
  cases h with
  | unique => exact absurd rfl (hok _)
  | singular => exact absurd rfl (hsingular _)
  | @inconsistent i e hnone _ => exact ⟨⟨i, e, rfl⟩, hnone⟩

end Gauge.Decides

/-! ### Equations of numbers -/

/-- The number that an expression without symbols stands for. -/
def Expr.value (e : Expr Rat) : Rat := (e.eval Environment.bare).getD 0

/-- The coefficient of an unknown in a row of a system, by their positions. -/
def coefficientAt (system : List (LinearRow Rat)) (r j : ℕ) : Rat :=
  (system[r]?.map fun row => (row.coefficient j).value).getD 0

/-- The right-hand side of a row of a system, by its position. -/
def rhsAt (system : List (LinearRow Rat)) (r : ℕ) : Rat :=
  (system[r]?.map fun row => row.rhs.value).getD 0

/-- The environment in which only the unknowns have values, those at their positions. -/
def Environment.ofUnknowns (unknowns : List Symbol) (x : Fin unknowns.length → Rat) :
    Environment Rat :=
  .ofIds fun i => (unknowns.findFinIdx? (·.id == i)).map x

/-- The numbers solve the equations for the unknowns. -/
def IsSolution (equations : List (Equation Rat)) (unknowns : List Symbol)
    (x : Fin unknowns.length → Rat) : Prop :=
  ∀ q ∈ equations, q.Holds (Environment.ofUnknowns unknowns x)

/-- Both sides are built from numbers and unknowns, by sums, by multiples and by quotients by
numbers other than zero. -/
def Equation.IsNumeric (unknowns : List Symbol) (q : Equation Rat) : Prop :=
  q.IsAffine unknowns (fun c => ∃ v, c = .number v) fun c => ∃ v, v ≠ 0 ∧ c = .number v

section

variable {unknowns : List Symbol} {x : Fin unknowns.length → Rat} {q : Equation Rat}
  {row : LinearRow Rat} {equations : List (Equation Rat)} {system : List (LinearRow Rat)}

theorem Environment.symbol_ofUnknowns (hnodup : (unknowns.map (·.id)).Nodup)
    (j : Fin unknowns.length) : (ofUnknowns unknowns x).symbol unknowns[j] = some (x j) := by
  refine Option.map_eq_some_iff.2
    ⟨j, List.findFinIdx?_eq_some_iff.2 ⟨by simp, fun i hi hid => ?_⟩, rfl⟩
  have hsame := List.inj_on_of_nodup_map hnodup (List.getElem_mem i.2) (List.getElem_mem j.2)
    (eq_of_beq hid)
  exact hi.ne (Fin.ext ((hnodup.of_map _).getElem_inj_iff.1 hsame))

theorem Environment.exists_symbol_ofUnknowns (hnodup : (unknowns.map (·.id)).Nodup)
    (x : Fin unknowns.length → Rat) :
    ∀ u ∈ unknowns, ∃ v, (ofUnknowns unknowns x).symbol u = some v := by
  intro u hu
  obtain ⟨j, hj, rfl⟩ := List.mem_iff_getElem.1 hu
  exact ⟨_, symbol_ofUnknowns hnodup ⟨j, hj⟩⟩

theorem Environment.areValues_ofUnknowns (hnodup : (unknowns.map (·.id)).Nodup) :
    AreValues (ofUnknowns unknowns x) unknowns (padded x) := by
  intro j u hu v hv
  obtain ⟨hj, rfl⟩ := List.getElem?_eq_some_iff.1 hu
  have hvalue := symbol_ofUnknowns (x := x) hnodup ⟨j, hj⟩
  rw [← Option.some.inj (hvalue.symm.trans hv)]
  exact padded_val x ⟨j, hj⟩

namespace Equation.IsNumeric

/-- Both sides have a value wherever the unknowns have one. -/
theorem exists_values (h : q.IsNumeric unknowns) {ρ : Environment Rat}
    (hρ : ∀ u ∈ unknowns, ∃ v, ρ.symbol u = some v) :
    ∃ l r, q.lhs.eval ρ = some l ∧ q.rhs.eval ρ = some r := by
  have hside {e : Expr Rat} (he : e.IsAffine unknowns (fun c => ∃ v, c = .number v)
      fun c => ∃ v, v ≠ 0 ∧ c = .number v) : ∃ v, e.eval ρ = some v := by
    refine he.exists_eval hρ ?_ ?_
    · rintro _ ⟨v, rfl⟩
      exact ⟨v, rfl⟩
    · rintro _ ⟨v, hv, rfl⟩
      exact ⟨v, hv, rfl⟩
  obtain ⟨⟨l, hl⟩, r, hr⟩ := And.intro (hside h.1) (hside h.2)
  exact ⟨l, r, hl, hr⟩

/-- No symbol is left in the row. -/
theorem within_noSymbol (h : q.IsNumeric unknowns) (hrow : q.linearRow? unknowns = some row) :
    row.Within NoSymbol := by
  have hside {e : Expr Rat} (he : e.IsAffine unknowns (fun c => ∃ v, c = .number v)
      fun c => ∃ v, v ≠ 0 ∧ c = .number v) : e.Within (· ∈ unknowns) := by
    refine he.within (fun u hu => hu) ?_ ?_
    · rintro _ ⟨v, rfl⟩
      exact within_number v
    · rintro _ ⟨v, -, rfl⟩
      exact within_number v
  intro e he s hs
  have hmem : s ∈ unknowns := q.linearRow?_within_of hrow (hside h.1) (hside h.2) e he s hs
  have hother := q.linearRow?_within hrow e he s hs s hmem
  rw [Symbol.beq_iff.2 rfl] at hother
  cases hother

/-- The sides of the equation differ by what the numbers in its row say. -/
theorem residual_row (h : q.IsNumeric unknowns) (hrow : q.linearRow? unknowns = some row)
    {ρ : Environment Rat} {x : ℕ → Rat} (hx : AreValues ρ unknowns x)
    (hfunction : ρ.function = Environment.bare.function) {l r : Rat}
    (hl : q.lhs.eval ρ = some l) (hr : q.rhs.eval ρ = some r) :
    row.HasValues Environment.bare (fun j => (row.coefficient j).value) row.rhs.value ∧
      l - r = ∑ j ∈ Finset.range unknowns.length, (row.coefficient j).value * x j -
        row.rhs.value := by
  obtain ⟨a, b, ⟨ha, hb⟩, hsum⟩ := q.linearRow?_residual hrow hx hl hr
  have hfree := h.within_noSymbol hrow
  have hbare {e : Expr Rat} (he : e.Within NoSymbol) : e.eval Environment.bare = e.eval ρ :=
    eval_of_noSymbol hfunction.symm he
  have ha (j : ℕ) : (row.coefficient j).eval Environment.bare = some (a j) :=
    (hbare (hfree.coefficient j)).trans (ha j)
  have hb : row.rhs.eval Environment.bare = some b := (hbare hfree.rhs).trans hb
  have hav (j : ℕ) : (row.coefficient j).value = a j := by rw [Expr.value, ha, Option.getD_some]
  have hbv : row.rhs.value = b := by rw [Expr.value, hb, Option.getD_some]
  simp only [hav, hbv]
  exact ⟨⟨ha, hb⟩, hsum⟩

/-- The equation says what its row says, for all numbers. -/
theorem row_of (h : q.IsNumeric unknowns) (hnodup : (unknowns.map (·.id)).Nodup)
    (hrow : q.linearRow? unknowns = some row) (x : Fin unknowns.length → Rat) :
    row.HasValues Environment.bare (fun j => (row.coefficient j).value) row.rhs.value ∧
      (q.Holds (Environment.ofUnknowns unknowns x) ↔
        ∑ j ∈ Finset.range unknowns.length, (row.coefficient j).value * padded x j =
          row.rhs.value) := by
  obtain ⟨l, r, hl, hr⟩ := h.exists_values (Environment.exists_symbol_ofUnknowns hnodup x)
  obtain ⟨hvalues, hsum⟩ :=
    h.residual_row hrow (Environment.areValues_ofUnknowns hnodup) rfl hl hr
  refine ⟨hvalues, ?_⟩
  rw [← sub_eq_zero (b := row.rhs.value), ← hsum, sub_eq_zero, Equation.holds_iff, hl, hr]
  simp

end Equation.IsNumeric

/-- The rows of the system have the numbers at their positions as values. -/
theorem reads_coefficientAt {g : Gauge Rat} (hnodup : (unknowns.map (·.id)).Nodup)
    (h : ∀ q ∈ equations, q.IsNumeric unknowns)
    (hsystem : linearSystem equations unknowns = .ok system) :
    Reads Environment.bare unknowns.length (system.map g.start) (coefficientAt system)
      (rhsAt system) := by
  intro r row hr _
  rw [List.getElem?_map, Option.map_eq_some_iff] at hr
  obtain ⟨row, hr, rfl⟩ := hr
  have hmem : row ∈ system := List.mem_of_getElem? hr
  obtain ⟨q, hq, hrow⟩ := exists_left_of_forall₂ (linearSystem_rows hsystem) hmem
  refine ⟨linearRow?_length hrow, ?_⟩
  have hA : coefficientAt system r = fun j => (row.coefficient j).value := by
    funext j
    simp [coefficientAt, hr]
  have hB : rhsAt system r = row.rhs.value := by simp [rhsAt, hr]
  rw [hA, hB]
  exact ((h q hq).row_of hnodup hrow 0).1

/-- The numbers solve the equations if and only if they satisfy the rows of the system. -/
theorem isSolution_iff (hnodup : (unknowns.map (·.id)).Nodup)
    (h : ∀ q ∈ equations, q.IsNumeric unknowns)
    (hsystem : linearSystem equations unknowns = .ok system) :
    IsSolution equations unknowns x ↔
      Satisfies (coefficientAt system) (rhsAt system) system.length unknowns.length (padded x) := by
  refine (forall_mem_iff_of_forall₂ (linearSystem_rows hsystem) fun q hq row hrow =>
    ((h q hq).row_of hnodup hrow x).2).trans ?_
  rw [List.forall_mem_iff_forall_getElem]
  refine forall₂_congr fun r hr => ?_
  simp [coefficientAt, rhsAt, hr]

/-- **With tolerance zero an elimination decides unique solvability.** Equations whose sides are
built from numbers and distinct unknowns, by sums, by multiples and by quotients by numbers other
than zero, have a linear system of numbers. Whatever the probe values, the elimination succeeds if
and only if there is exactly one solution, and returns it then. It calls the system singular if and
only if a column is a linear combination of the columns before it, and names the unknown of the
first such column. Otherwise it reports a contradiction, and there is no solution. -/
theorem gaussJordan_decides (probe : Symbol → Rat) {equations : List (Equation Rat)}
    {unknowns : List Symbol} (hunknowns : (unknowns.map (·.id)).Nodup)
    (h : ∀ q ∈ equations, q.IsNumeric unknowns) :
    ∃ system, linearSystem equations unknowns = .ok system ∧
      (∀ row ∈ system, row.IsDefined Environment.bare) ∧
      let result := gaussJordan 0 probe equations unknowns
      let A := coefficientAt system
      ((∃ solution, result = .ok solution) ↔ ∃! x, IsSolution equations unknowns x) ∧
      (∀ solution, result = .ok solution →
        solution.map (·.lhs) = unknowns.map .symbol ∧ ∃ x, IsSolution equations unknowns x ∧
          evalAll Environment.bare (solution.map (·.rhs)) = some (List.ofFn x)) ∧
      (∀ u, result = .error (.singular u) ↔ ∃ k, unknowns[k]? = some u ∧
        IsCombination A system.length k ∧ ∀ j < k, ¬ IsCombination A system.length j) ∧
      ((∀ solution, result ≠ .ok solution) → (∀ u, result ≠ .error (.singular u)) →
        (∃ i e, result = .error (.inconsistent i e)) ∧ ∀ x, ¬ IsSolution equations unknowns x) := by
  have hnumber {P : Rat → Prop} (c : Expr Rat) (hc : ∃ v, P v ∧ c = .number v) :
      c.Within (IsOther unknowns) := by
    obtain ⟨v, -, rfl⟩ := hc
    exact within_number v
  obtain ⟨system, hsystem⟩ := exists_linearSystem h (fun c ⟨v, hc⟩ => hc ▸ within_number v) hnumber
  have hreads := reads_coefficientAt (g := .probing 0 probe unknowns) hunknowns h hsystem
  have hfree : ∀ row ∈ system, row.Within NoSymbol := fun row hrow => by
    obtain ⟨q, hq, hrow⟩ := exists_left_of_forall₂ (linearSystem_rows hsystem) hrow
    exact (h q hq).within_noSymbol hrow
  have hdecides := (Gauge.isExact_probing probe unknowns).decides hsystem hreads hfree
  refine ⟨system, hsystem, fun row hrow => ?_, ?_⟩
  · obtain ⟨q, hq, hrow⟩ := exists_left_of_forall₂ (linearSystem_rows hsystem) hrow
    exact ((h q hq).row_of hunknowns hrow 0).1.isDefined
  · simp only [isSolution_iff hunknowns h hsystem]
    refine ⟨hdecides.ok_iff, fun solution hok => ?_, fun u => hdecides.singular_iff, ?_⟩
    · exact (hok ▸ hdecides : Gauge.Decides _ _ _ _ _ (.ok solution)).values
    · intro hok hsingular
      obtain ⟨herror, hnone⟩ := hdecides.inconsistent_of_ne hok hsingular
      exact ⟨herror, fun x => hnone _⟩

/-- Three rows for two unknowns, of which one is redundant. The first row alone is singular. -/
theorem gaussJordan_decides_redundant :
    let x : Symbol := ⟨0, "x"⟩
    let y : Symbol := ⟨1, "y"⟩
    let sum : Equation Rat := ⟨.symbol x + .symbol y, .number 3⟩
    let equations := [sum, ⟨.number 2 * (.symbol x - .symbol y), .number 2⟩,
      ⟨.symbol x / .number 2, .number 1⟩]
    let probe (s : Symbol) : Rat := s.id + 1
    (∃! v, IsSolution equations [x, y] v) ∧
      gaussJordan 0 probe [sum] [x, y] = .error (.singular y) := by
  intro x y sum equations probe
  have hnodup : ([x, y].map (·.id)).Nodup := by decide
  have hsum : sum.IsNumeric [x, y] :=
    ⟨.plus (.unknown (by simp)) (.unknown (by simp)), .constant ⟨3, rfl⟩⟩
  have hequations : ∀ q ∈ equations, q.IsNumeric [x, y] := by
    refine List.forall_mem_cons.2
      ⟨hsum, List.forall_mem_cons.2 ⟨?_, List.forall_mem_singleton.2 ?_⟩⟩
    · exact ⟨.multiple ⟨2, rfl⟩ (.minus (.unknown (by simp)) (.unknown (by simp))),
        .constant ⟨2, rfl⟩⟩
    · exact ⟨.divide (.unknown (by simp)) ⟨2, two_ne_zero, rfl⟩, .constant ⟨1, rfl⟩⟩
  have hsingle : ∀ q ∈ [sum], q.IsNumeric [x, y] := by simpa using hsum
  constructor
  · obtain ⟨-, -, -, hok, -⟩ := gaussJordan_decides probe hnodup hequations
    exact hok.1 ⟨_, eq_ok_getD (by decide +kernel)⟩
  · obtain ⟨system, hsystem, -, -, -, hsingular, -⟩ := gaussJordan_decides probe hnodup hsingle
    obtain rfl := Except.ok.inj (hsystem.symm.trans (eq_ok_getD (by decide +kernel)))
    refine (hsingular y).2 ⟨1, rfl, ⟨fun _ => 1, ?_⟩, ?_⟩
    · decide +kernel
    · rintro j hj ⟨v, hv⟩
      obtain rfl : j = 0 := by omega
      have hzero := hv 0 (by decide +kernel)
      rw [Finset.range_zero, Finset.sum_empty] at hzero
      exact absurd hzero (by decide +kernel)

end

end Kirchhoff
