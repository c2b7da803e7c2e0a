import Kirchhoff.Linear.System

/-!
# Gauss-Jordan elimination

A linear system is solved column by column. Among the rows that are not used yet, the one
whose coefficient is greatest in relation to its own row becomes the pivot, and the unknown
is eliminated from all other rows. Pivot rows are not normalized; the solution divides by
the pivots at the end.

The entries are expressions, of which it is not always clear whether they are zero. A
`Gauge` decides it by a magnitude: a difference that is negligible next to what it was
computed from counts as zero. `Gauge.probing` takes the value of an expression at fixed
pseudo-random values of its symbols for that magnitude.
-/

namespace Kirchhoff

variable {α : Type} [Scalar α]

/-! ### Telling zero -/

/-- How entries are compared with zero. -/
structure Gauge (α : Type) where
  tolerance : α
  magnitude : Expr α → α

/-- The gauge that evaluates expressions at probe values. An expression without a finite
value there, because it contains an unknown or a function without a value, counts as one. -/
def Gauge.probing (tolerance : α) (probe : Symbol → α) (unknowns : List Symbol) : Gauge α where
  tolerance := tolerance
  magnitude e :=
    let symbol (s : Symbol) := if unknowns.any (· == s) then none else some (probe s)
    match e.eval (.elementary symbol) with
    | some v => if Scalar.isFinite v then Scalar.abs v else 1
    | none => 1

/-- The difference of two entries, or zero when it is negligible next to them. -/
def Gauge.reduce (g : Gauge α) (old delta : Expr α) : Expr α :=
  let value := old - delta
  if value.isZero then value
  else
    let scale := Scalar.max (g.magnitude old) (g.magnitude delta)
    if g.magnitude value ≤ g.tolerance * scale then .number 0 else value

/-! ### Eliminating -/

/-- A row during the elimination. Its `scale` is the greatest magnitude that its right-hand
side was computed from. -/
structure PivotRow (α : Type) extends LinearRow α where
  scale : α
  isUsed : Bool := false

/-- The row before the elimination. -/
def Gauge.start (g : Gauge α) (r : LinearRow α) : PivotRow α :=
  { r with scale := g.magnitude r.rhs }

/-- The greatest magnitude of a coefficient in a row. -/
def Gauge.rowScale (g : Gauge α) (r : LinearRow α) : α :=
  (r.coefficients.map g.magnitude).foldl Scalar.max 0

/-- The magnitude of a coefficient in relation to its row, if the row may become a pivot. -/
def Gauge.relative? (g : Gauge α) (c : Nat) (r : PivotRow α) : Option α :=
  let e := r.coefficient c
  if r.isUsed || e.isZero then none
  else
    let x := g.magnitude e / g.rowScale r.toLinearRow
    if g.tolerance < x then some x else none

/-- The better of the best candidate so far and another one. The earlier one stays unless
the later one is greater. -/
def betterPivot (best : Option (Nat × α)) (r : Nat) : Option α → Option (Nat × α)
  | none => best
  | some x =>
    match best with
    | none => some (r, x)
    | some (p, m) => if m < x then some (r, x) else some (p, m)

/-- The row that becomes the pivot of a column. -/
def Gauge.pivot? (g : Gauge α) (rows : List (PivotRow α)) (c : Nat) : Option Nat :=
  (rows.zipIdx.foldl (fun best (row, r) => betterPivot best r (g.relative? c row)) none).map (·.1)

/-- Eliminates the unknown of a column from a row by means of the pivot row. -/
def Gauge.eliminate (g : Gauge α) (pivot : PivotRow α) (c : Nat) (r : PivotRow α) :
    PivotRow α :=
  if (r.coefficient c).isZero then r
  else
    let ratio := r.coefficient c / pivot.coefficient c
    let entry (old : Expr α) (kc : Expr α × Nat) : Expr α :=
      if kc.2 = c then .number 0
      else if kc.1.isZero then old
      else g.reduce old (ratio * kc.1)
    let coefficients := List.zipWith entry r.coefficients pivot.coefficients.zipIdx
    if pivot.rhs.isZero then { r with coefficients }
    else
      let delta := ratio * pivot.rhs
      { r with
        coefficients
        rhs := g.reduce r.rhs delta
        scale := Scalar.max r.scale (g.magnitude delta) }

/-- The rows after the unknown of a column is eliminated by the row at a position. -/
def Gauge.clearColumn (g : Gauge α) (rows : List (PivotRow α)) (c p : Nat) (pivot : PivotRow α) :
    List (PivotRow α) :=
  rows.mapIdx fun r row => if r = p then { row with isUsed := true } else g.eliminate pivot c row

/-- Eliminates the given unknowns, from a column on. Gives the rows at the end and the pivot
row of each column. -/
def Gauge.run (g : Gauge α) :
    List Symbol → Nat → List (PivotRow α) → Except (SolverError α) (List (PivotRow α) × List Nat)
  | [], _, rows => .ok (rows, [])
  | u :: us, c, rows =>
    match g.pivot? rows c with
    | none => .error (.singular u)
    | some p =>
      match rows[p]? with
      | none => .error (.singular u)
      | some pivot => do
        let (rows, pivots) ← g.run us (c + 1) (g.clearColumn rows c p pivot)
        return (rows, p :: pivots)

/-- The first row that no pivot used and whose right-hand side is not negligible. -/
def Gauge.contradiction? (g : Gauge α) (rows : List (PivotRow α)) : Option (Nat × Expr α) :=
  (rows.zipIdx.find? fun (row, _) =>
    !row.isUsed && !row.rhs.isZero && decide (g.tolerance * row.scale < g.magnitude row.rhs)).map
    fun (row, r) => (r, row.rhs)

/-- The solution that the rows give for an unknown. -/
def solutionOf (rows : List (PivotRow α)) (unknown : Symbol) (c p : Nat) : Equation α :=
  ⟨.symbol unknown, match rows[p]? with
    | some row => row.rhs / row.coefficient c
    | none => .symbol unknown⟩

/-- Solves a system for its unknowns by elimination. -/
def Gauge.solve (g : Gauge α) (equations : List (Equation α)) (unknowns : List Symbol) :
    Except (SolverError α) (List (Equation α)) := do
  let system ← linearSystem equations unknowns
  let (rows, pivots) ← g.run unknowns 0 (system.map g.start)
  match g.contradiction? rows with
  | some (r, residual) => .error (.inconsistent r residual)
  | none => .ok ((unknowns.zip pivots).mapIdx fun c (u, p) => solutionOf rows u c p)

/-! ### The solver -/

/-- Elimination with probe values for the symbols. -/
def gaussJordan (tolerance : α) (probe : Symbol → α) : Solver α := fun equations unknowns =>
  (Gauge.probing tolerance probe unknowns).solve equations unknowns

/-- The probe value of a symbol: multiples of the golden ratio, which spread over the
numbers from one to two. -/
def Symbol.probe (s : Symbol) : Float :=
  let x := (s.id + 1).toFloat * 0.618033988749895
  1 + (x - x.floor)

/-- The tolerance that is used when none is given. -/
def defaultTolerance : Float := 1e-9

end Kirchhoff
