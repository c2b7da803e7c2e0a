import Mathlib.Algebra.BigOperators.Ring.Finset
import Mathlib.Algebra.Field.Rat
import Mathlib.Tactic.Ring
import Kirchhoff.Proofs.Expr.Canonical
import Kirchhoff.Proofs.Expr.Execution
import Kirchhoff.Proofs.Synthesis.Reached

/-!
# Integrals and derivatives over a run

In a run the steps are solved one after another. The auxiliary of an operator is zero in the first
step, and after each step it takes the value of the right side of its support equation
(`environmentAt`).

The support equations set the auxiliary of an integral to the last summand, and that of a derivative
to the last rate. So an integral is the sum of the last two summands, and a derivative is the rate
at which the operand departs from the rate before (`operators_run`). The integral over all steps is
the same as long as the summands before the last two add up to nothing, and the difference quotient
of the operand is the same where the last rate is the operand of the step before.
-/

namespace Kirchhoff.Discretization

open Kirchhoff.Expr Environment Finset

/-! ### Runs -/

/-- The environment in which each step of a run is solved. The auxiliary is what the support
equations have left in it in the step before; everything else is given for each step. -/
def environmentAt (d : Discretization Rat) (a : Symbol) (ρ : ℕ → Environment Rat) :
    ℕ → Environment Rat
  | 0 => (ρ 0).assign a (some 0)
  | n + 1 => (ρ (n + 1)).assign a (((d.environmentAt a ρ n).run d.support).symbol a)

/-- The value of a sequence in the step before, which is zero in the first step. -/
def previous (x : ℕ → Rat) : ℕ → Rat
  | 0 => 0
  | n + 1 => x n

/-- The rate of change from the rate before to the operand. -/
def rate (ts : Rat) (x : ℕ → Rat) : ℕ → Rat
  | 0 => x 0 / ts
  | n + 1 => (x (n + 1) - rate ts x n) / ts

theorem rate_eq (ts : Rat) (x : ℕ → Rat) (n : ℕ) :
    rate ts x n = (x n - previous (rate ts x) n) / ts := by
  cases n with
  | zero => rw [rate, previous, sub_zero]
  | succ n => rw [rate, previous]

/-- The timestep and an operand have values in every step. -/
structure HasValues (k : Context Rat) (e : Expr Rat) (ρ : ℕ → Environment Rat) (ts : Rat)
    (x : ℕ → Rat) : Prop where
  timestep (n : ℕ) : k.timestepExpr.eval (ρ n) = some ts
  operand (n : ℕ) : e.eval (ρ n) = some (x n)

/-! ### The auxiliary -/

section

variable {a : Symbol} {e refreshed : Expr Rat} {ρ : ℕ → Environment Rat}

theorem eval_assign (ρ : Environment Rat) (h : e.Within (·.id < a.id)) (v : Option Rat) :
    e.eval (ρ.assign a v) = e.eval ρ := by
  have hfunction : (ρ.assign a v).function = ρ.function := rfl
  refine eval_congr hfunction fun s hs => ?_
  have hsa : (s == a) = false := by
    rw [← Bool.not_eq_true, Symbol.beq_iff]
    exact (h s hs).ne
  show (if s == a then v else ρ.symbol s) = ρ.symbol s
  rw [hsa]
  rfl

theorem eval_environmentAt (d : Discretization Rat) (h : e.Within (·.id < a.id)) (n : ℕ) :
    e.eval (d.environmentAt a ρ n) = e.eval (ρ n) := by
  cases n with
  | zero => exact eval_assign _ h _
  | succ n => exact eval_assign _ h _

/-- The auxiliary is the right side of its support equation, one step later. -/
theorem symbol_environmentAt {x : ℕ → Rat}
    (h : ∀ n, ((empty.record a refreshed).environmentAt a ρ n).symbol a = some (previous x n) →
      refreshed.eval ((empty.record a refreshed).environmentAt a ρ n) = some (x n)) (n : ℕ) :
    ((empty.record a refreshed).environmentAt a ρ n).symbol a = some (previous x n) := by
  have hself : (a == a) = true := Symbol.beq_iff.2 rfl
  induction n with
  | zero => rw [environmentAt, assign_symbol, if_pos hself, previous]
  | succ n ih =>
    rw [environmentAt, assign_symbol, if_pos hself, previous, ← h n ih]
    exact symbol_run _ [] [] rfl (fun _ _ => List.forall_mem_nil _) (List.forall_mem_nil _)

end

/-! ### The operators -/

variable {k : Context Rat} {e : Expr Rat} {ρ : ℕ → Environment Rat} {ts : Rat} {x : ℕ → Rat}

/-- The auxiliary of an operator is younger than the timestep. -/
theorem freshSymbol_timestep (hk : k.IsSound) (stem : String) :
    (Context.freshSymbol stem k).1.id = k.symbols.next ∧
      (Context.freshSymbol stem k).2.timestepExpr = k.timestepExpr ∧
      k.timestepExpr.Within (·.id < (Context.freshSymbol stem k).1.id) := by
  obtain ⟨m, l, -, hfresh⟩ := Context.freshSymbol_spec stem k
  have hts := Context.timestepExpr_congr (Context.isGrowing_freshSymbol stem k).timestep
  rw [hfresh] at hts ⊢
  exact ⟨rfl, hts, fun s hs => hk.isNumbered.lt_next s (hk.within_timestepExpr s hs)⟩

/-- An integral is the sum of the last two summands. -/
theorem integral_run (hk : k.IsSound) (he : e.Within (·.id < k.symbols.next))
    (h : HasValues k e ρ ts x) :
    ∃ a, (empty.integral e k).1.2.auxiliaries = [⟨a, none⟩] ∧
      ∀ n, (empty.integral e k).1.1.eval ((empty.integral e k).1.2.environmentAt a ρ n) =
        some (ts * (previous x n + x n)) := by
  obtain ⟨hid, htimestep, hts⟩ := freshSymbol_timestep hk integralStem
  rw [← hid] at he
  have hop : (empty.integral e k).1 =
      let a := (Context.freshSymbol integralStem k).1
      let step := e * (Context.freshSymbol integralStem k).2.timestepExpr
      (.symbol a + step, empty.record a step) := rfl
  rw [hop, htimestep]
  generalize (Context.freshSymbol integralStem k).1 = a at he hts
  refine ⟨a, rfl, fun n => ?_⟩
  have hstep (n : ℕ) : (e * k.timestepExpr).eval
      ((empty.record a (e * k.timestepExpr)).environmentAt a ρ n) = some (x n * ts) :=
    eval_times ((eval_environmentAt _ he n).trans (h.operand n))
      ((eval_environmentAt _ hts n).trans (h.timestep n))
  have hsymbol : ((empty.record a (e * k.timestepExpr)).environmentAt a ρ n).symbol a =
      some (previous (fun n => x n * ts) n) :=
    symbol_environmentAt (fun n _ => hstep n) n
  have hvalue : previous (fun n => x n * ts) n + x n * ts = ts * (previous x n + x n) := by
    cases n <;> simp only [previous] <;> ring
  rw [← hvalue]
  exact eval_plus hsymbol (hstep n)

/-- A derivative is the rate of change from the rate before. -/
theorem derivative_run (hk : k.IsSound) (he : e.Within (·.id < k.symbols.next)) (hts0 : ts ≠ 0)
    (h : HasValues k e ρ ts x) :
    ∃ a, (empty.derivative e k).1.2.auxiliaries = [⟨a, none⟩] ∧
      ∀ n, (empty.derivative e k).1.1.eval ((empty.derivative e k).1.2.environmentAt a ρ n) =
        some (rate ts x n) := by
  obtain ⟨hid, htimestep, hts⟩ := freshSymbol_timestep hk derivativeStem
  rw [← hid] at he
  have hop : (empty.derivative e k).1 =
      let a := (Context.freshSymbol derivativeStem k).1
      let rate := (e - .symbol a) / (Context.freshSymbol derivativeStem k).2.timestepExpr
      (rate, empty.record a rate) := rfl
  rw [hop, htimestep]
  generalize (Context.freshSymbol derivativeStem k).1 = a at he hts
  refine ⟨a, rfl, fun n => ?_⟩
  have hrate (n : ℕ) (ha : ((empty.record a ((e - .symbol a) / k.timestepExpr)).environmentAt a ρ
      n).symbol a = some (previous (rate ts x) n)) :
      ((e - .symbol a) / k.timestepExpr).eval
        ((empty.record a ((e - .symbol a) / k.timestepExpr)).environmentAt a ρ n) =
        some (rate ts x n) := by
    rw [rate_eq]
    exact eval_over (eval_minus ((eval_environmentAt _ he n).trans (h.operand n)) ha)
      ((eval_environmentAt _ hts n).trans (h.timestep n)) hts0
  exact hrate n (symbol_environmentAt hrate n)

/-- The last two summands are all of them when those before add up to nothing. -/
theorem integral_eq_sum_iff (hts : ts ≠ 0) (x : ℕ → Rat) (n : ℕ) :
    ts * (previous x n + x n) = ts * ∑ i ∈ range (n + 1), x i ↔ ∑ i ∈ range (n - 1), x i = 0 := by
  rw [mul_right_inj' hts]
  cases n with
  | zero => simp [previous]
  | succ n =>
    rw [sum_range_succ, sum_range_succ, previous, Nat.add_sub_cancel, add_assoc,
      eq_comm, add_eq_right]

/-- The rate is that of the operand when the auxiliary is the operand of the step before. -/
theorem rate_eq_difference_iff (hts : ts ≠ 0) (x : ℕ → Rat) (n : ℕ) :
    rate ts x n = (x n - previous x n) / ts ↔ previous (rate ts x) n = previous x n := by
  rw [rate_eq, div_left_inj' hts, sub_right_inj]

/-- **The operators over a run.** In each step an integral gives the timestep times the sum of the
operand's last two values. This is the whole sum exactly when the values before those add up to
zero, so in the first two steps. A derivative gives the rate of change from its rate in the step
before. This is the rate of change of the operand exactly when the operand was equal to that rate,
or in the first step. -/
theorem operators_run (hk : k.IsSound) (he : e.Within (·.id < k.symbols.next)) (hts : ts ≠ 0)
    (h : HasValues k e ρ ts x) :
    (let op := (empty.integral e k).1
      ∃ a, op.2.auxiliaries = [⟨a, none⟩] ∧ ∀ n,
        op.1.eval (op.2.environmentAt a ρ n) = some (ts * (previous x n + x n)) ∧
        (op.1.eval (op.2.environmentAt a ρ n) = some (ts * ∑ i ∈ range (n + 1), x i) ↔
          ∑ i ∈ range (n - 1), x i = 0)) ∧
    (let op := (empty.derivative e k).1
      ∃ a, op.2.auxiliaries = [⟨a, none⟩] ∧ ∀ n,
        op.1.eval (op.2.environmentAt a ρ n) = some (rate ts x n) ∧
        (op.1.eval (op.2.environmentAt a ρ n) = some ((x n - previous x n) / ts) ↔
          previous (rate ts x) n = previous x n)) := by
  obtain ⟨a, ha, hintegral⟩ := integral_run hk he h
  obtain ⟨b, hb, hderivative⟩ := derivative_run hk he hts h
  refine ⟨⟨a, ha, fun n => ⟨hintegral n, ?_⟩⟩, b, hb, fun n => ⟨hderivative n, ?_⟩⟩
  · rw [hintegral n, Option.some_inj]
    exact integral_eq_sum_iff hts x n
  · rw [hderivative n, Option.some_inj]
    exact rate_eq_difference_iff hts x n

/-- For the operands `1, 2, 3` and the timestep `2`, the integral is `10` in the third step, and the
derivative is `9 / 8`, after `1 / 2` and `3 / 4`. -/
theorem operators_run_ramp :
    let k := (Context.symbol "x" (Context.new : Context Rat)).2
    let ρ : ℕ → Environment Rat := fun n => .ofIds fun i => if i = 0 then some 2 else some (n + 1)
    let i := (empty.integral (.symbol ⟨1, "x"⟩) k).1
    let d := (empty.derivative (.symbol ⟨1, "x"⟩) k).1
    (∃ a, i.2.auxiliaries = [⟨a, none⟩] ∧ i.1.eval (i.2.environmentAt a ρ 2) = some 10) ∧
    ∃ a, d.2.auxiliaries = [⟨a, none⟩] ∧ d.1.eval (d.2.environmentAt a ρ 2) = some (9 / 8) := by
  intro k ρ i d
  have he : (Expr.symbol ⟨1, "x"⟩ : Expr Rat).Within (·.id < k.symbols.next) :=
    within_symbol_iff.2 (by decide)
  have hvalues : HasValues k (.symbol ⟨1, "x"⟩) ρ 2 fun n => n + 1 := ⟨fun _ => rfl, fun _ => rfl⟩
  obtain ⟨⟨a, ha, hintegral⟩, b, hb, hderivative⟩ :=
    operators_run (Context.isSound_new.symbol "x") he two_ne_zero hvalues
  refine ⟨⟨a, ha, (hintegral 2).1.trans ?_⟩, b, hb, (hderivative 2).1.trans ?_⟩
  · norm_num [previous]
  · norm_num [rate]

/-- For the operand `1` and the timestep `2`, the integral is `4` and not `6` in the third step, and
the derivative is a quarter and not zero in the second. -/
theorem exists_operator_differs :
    let k := (Context.symbol "x" (Context.new : Context Rat)).2
    let ρ : ℕ → Environment Rat := fun _ => .ofIds fun i => if i = 0 then some 2 else some 1
    let i := (empty.integral (.symbol ⟨1, "x"⟩) k).1
    let d := (empty.derivative (.symbol ⟨1, "x"⟩) k).1
    (∃ a, i.2.auxiliaries = [⟨a, none⟩] ∧ i.1.eval (i.2.environmentAt a ρ 2) = some 4 ∧
      (4 : Rat) ≠ 2 * ∑ _i ∈ range 3, 1) ∧
    ∃ a, d.2.auxiliaries = [⟨a, none⟩] ∧ d.1.eval (d.2.environmentAt a ρ 1) = some (1 / 4) ∧
      (1 / 4 : Rat) ≠ (1 - 1) / 2 :=
  ⟨⟨_, rfl, by decide +kernel, by decide +kernel⟩, _, rfl, by decide +kernel, by decide +kernel⟩

end Kirchhoff.Discretization
