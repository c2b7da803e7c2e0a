import Mathlib.Algebra.Field.Rat
import Kirchhoff.Generation.Outline
import Kirchhoff.Proofs.Linear.ClosedForm
import Kirchhoff.Proofs.Substitution
import Kirchhoff.Proofs.Synthesis.Reached

/-!
# Support equations of a solution

Every use of an operator takes an auxiliary of its own (`Progress.taken`), and the discretization of
a session lists these auxiliaries in the order of use (`Progress.auxiliaries_run`). A system has one
support equation for each of them, which has the auxiliary on its left.

A solution has the support equations after the substitution, and this replaces symbols on both
sides. So the left side is what the substitution makes of the auxiliary: it is still the auxiliary
exactly when this one is not replaced (`System.solve_support`). A number that is put in for the
value of an auxiliary before the first step leaves no equation that refreshes it
(`exists_support_replaced`).
-/

namespace Kirchhoff

open Kirchhoff.Expr

variable {α : Type}

/-! ### Auxiliaries of a session -/

/-- The stem of the auxiliary that a step takes. -/
def Step.stem? : Step α → Option String
  | .integral _ => some Discretization.integralStem
  | .derivative _ => some Discretization.derivativeStem
  | _ => none

namespace Progress

/-- The session before its first step. -/
def start (k : Context α) : Progress α := { toSession := { context := k } }

/-- The auxiliary that a step takes. -/
def auxiliary? (p : Progress α) (st : Step α) : Option Symbol :=
  st.stem?.map fun stem => (Context.freshSymbol stem p.context).1

variable {p : Progress α}

/-- No two auxiliaries are the same, neither by their numbers nor by their names. -/
theorem IsSound.pairwise_auxiliaries (h : p.IsSound) :
    p.discretization.auxiliaries.Pairwise fun a b =>
      (a.symbol == b.symbol) = false ∧ a.name ≠ b.name := by
  refine (h.increasing.and (List.pairwise_map.1 h.nodup_auxiliaries)).imp fun ⟨hlt, hname⟩ => ?_
  rw [← Bool.not_eq_true, Symbol.beq_iff]
  exact ⟨hlt.ne, hname⟩

/-- The support equations have the auxiliaries on their left, in the same order. -/
theorem IsSound.lhs_support (h : p.IsSound) :
    p.discretization.support.map (·.lhs) =
      p.discretization.auxiliaries.map fun a => .symbol a.symbol := by
  rw [← List.forall₂_eq_eq_eq, List.forall₂_map_left_iff, List.forall₂_map_right_iff]
  exact h.refreshes.imp fun _ _ hq => hq.1

variable [Scalar α]

/-- The auxiliaries that the steps take, one for each operator. -/
def taken (p : Progress α) : List (Step α) → List Symbol
  | [] => []
  | st :: steps => (p.auxiliary? st).toList ++ (p.step st).taken steps

/-- A step lists the auxiliary that it takes. -/
theorem auxiliaries_step (p : Progress α) (st : Step α) :
    (p.step st).discretization.auxiliaries =
      p.discretization.auxiliaries ++ (p.auxiliary? st).toList.map ({ symbol := · }) := by
  rw [step_eq_change]
  cases st with
  | integral o | derivative o => rfl
  | _ => exact (List.append_nil _).symm

/-- The auxiliaries of a session are those that its steps take. -/
theorem auxiliaries_run (p : Progress α) (steps : List (Step α)) :
    (p.run steps).discretization.auxiliaries =
      p.discretization.auxiliaries ++ (p.taken steps).map ({ symbol := · }) := by
  induction steps generalizing p with
  | nil => exact (List.append_nil _).symm
  | cons st steps ih =>
    calc ((p.step st).run steps).discretization.auxiliaries
      _ = (p.step st).discretization.auxiliaries ++
            ((p.step st).taken steps).map ({ symbol := · }) := ih _
      _ = p.discretization.auxiliaries ++ (p.taken (st :: steps)).map ({ symbol := · }) := by
        rw [auxiliaries_step, taken, List.map_append, List.append_assoc]

end Progress

/-! ### Solutions -/

section

variable [Scalar α] {σ : Substitution α}

/-- What a solution is made of. -/
theorem System.solve_spec {s : System α} {solver : Solver α} {solution : Solution α}
    (h : s.solve solver σ = .ok solution) :
    solver (s.substituted σ) s.unknowns = .ok solution.equations ∧
      solution.support = s.support.map σ.applyEquation ∧
      solution.auxiliaries = s.auxiliaries := by
  unfold System.solve at h
  cases hsolver : solver (s.substituted σ) s.unknowns with
  | error e =>
    rw [hsolver] at h
    cases h
  | ok equations =>
    rw [hsolver] at h
    dsimp only at h
    split at h
    · cases h
    · obtain rfl := Except.ok.inj h
      exact ⟨rfl, rfl, rfl⟩

/-- The left sides are replaced like all expressions. -/
theorem Substitution.map_lhs_applyEquation (qs : List (Equation α)) :
    (qs.map σ.applyEquation).map (·.lhs) = (qs.map (·.lhs)).map σ.apply := by
  rw [List.map_map, List.map_map]
  exact List.map_congr_left fun q _ => congrArg Equation.lhs (σ.applyEquation_eq q)

/-- A symbol is left as it is when it is not replaced, or replaced by itself. -/
theorem Substitution.apply_symbol_eq_iff {s : Symbol} :
    σ.apply (.symbol s) = .symbol s ↔ ∀ e, σ.get? s = some e → e = .symbol s := by
  rw [σ.apply_symbol]
  cases σ.get? s with
  | none => simp
  | some e => simp

/-- **Support equations of a solution.** Whatever script is synthesized in a context that was
reached, and whatever solver and substitution solve its system: the auxiliaries of the solution are
those that the operators take, one for each use and no two of them the same. The solution has one
support equation for each, in the same order, and on its left what the substitution makes of the
auxiliary. So the class writes the auxiliaries, one after another, exactly when the substitution
leaves them as they are. -/
theorem System.solve_support {k : Context α} (hk : k.IsReached) (steps : List (Step α))
    {solver : Solver α} {solution : Solution α}
    (h : (synthesize (Script.model steps) k).1.solve solver σ = .ok solution) :
    let taken := (Progress.start k).taken steps
    solution.auxiliaries = taken.map ({ symbol := · }) ∧
      taken.Pairwise (fun a b => (a == b) = false ∧ a.name ≠ b.name) ∧
      solution.support.map (·.lhs) = taken.map (fun a => (σ.get? a).getD (.symbol a)) ∧
      ∀ (name : String) (matrix : Option (Matrix α)),
        let o := Outline.ofSystem name (synthesize (Script.model steps) k).1 solution matrix
        o.support.map (·.lhs) = taken.map .symbol ↔
          ∀ a ∈ taken, ∀ e, σ.get? a = some e → e = .symbol a := by
  intro taken
  have hsound : ((Progress.start k).run steps).IsSound :=
    (Progress.isSound_start hk.isSound).run steps
  obtain ⟨-, hsupport, hauxiliaries⟩ := System.solve_spec h
  have htaken : solution.auxiliaries = taken.map ({ symbol := · }) :=
    hauxiliaries.trans ((Progress.start k).auxiliaries_run steps)
  have hlhs : solution.support.map (·.lhs) = taken.map fun a => σ.apply (.symbol a) := by
    calc solution.support.map (·.lhs)
      _ = ((synthesize (Script.model steps) k).1.support.map (·.lhs)).map σ.apply := by
        rw [hsupport, Substitution.map_lhs_applyEquation]
      _ = (solution.auxiliaries.map fun a => .symbol a.symbol).map σ.apply := by
        rw [hauxiliaries]
        exact congrArg (List.map σ.apply) hsound.lhs_support
      _ = taken.map fun a => σ.apply (.symbol a) := by
        rw [htaken, List.map_map, List.map_map]
        rfl
  refine ⟨htaken, ?_, ?_, fun name matrix => ?_⟩
  · have hpairwise := hsound.pairwise_auxiliaries
    rw [Progress.auxiliaries_run] at hpairwise
    exact List.pairwise_map.1 hpairwise
  · rw [hlhs]
    exact List.map_congr_left fun a _ => σ.apply_symbol a
  · intro o
    rw [show o.support.map (·.lhs) = _ from hlhs, List.map_inj_left]
    exact forall₂_congr fun a _ => Substitution.apply_symbol_eq_iff

end

/-- The integral of a parameter, which has a number when the system is solved: its auxiliary has
none, and is refreshed. -/
theorem System.solve_support_integral :
    let steps : List (Step Rat) := [.parameter "p", .symbol "x", .unknown (.result 1),
      .integral (.result 0), .relate (.result 1) (.result 2)]
    let s := (synthesize (Script.model steps) Context.new).1
    let probe (x : Symbol) : Rat := x.id + 1
    let σ : Substitution Rat := ⟨[(⟨1, "p"⟩, .number 2)]⟩
    ∃ solution, s.solve (gaussJordan (1 / 1000) probe) σ = .ok solution ∧
      solution.auxiliaries = [⟨⟨3, "idt0"⟩, none⟩] ∧
      (Outline.ofSystem "M" s solution none).support.map (·.lhs) = [.symbol ⟨3, "idt0"⟩] := by
  intro steps s probe σ
  have htaken : (Progress.start Context.new).taken steps = [⟨3, "idt0"⟩] := rfl
  have hget : σ.get? ⟨3, "idt0"⟩ = none := rfl
  have hsolver := eq_ok_getD (y := gaussJordan (1 / 1000) probe (s.substituted σ) s.unknowns)
    (by decide +kernel)
  have hsolve := s.solve_gaussJordan σ (1 / 1000) probe
  rw [hsolver] at hsolve
  obtain ⟨hauxiliaries, -, -, hlhs⟩ :=
    System.solve_support (k := Context.new) ⟨[], rfl⟩ steps hsolve
  rw [htaken] at hauxiliaries hlhs
  refine ⟨_, hsolve, hauxiliaries, (hlhs "M" none).2 ?_⟩
  rw [List.forall_mem_singleton, hget]
  exact nofun

/-- The same integral with a number for its auxiliary, as a run of one step from known values needs
it: the only support equation sets that number equal to something. -/
theorem exists_support_replaced :
    let steps : List (Step Rat) := [.parameter "p", .symbol "x", .unknown (.result 1),
      .integral (.result 0), .relate (.result 1) (.result 2)]
    let r := synthesize (Script.model steps) Context.new
    let probe (x : Symbol) : Rat := x.id + 1
    ∃ σ solution, Substitution.ofAssignments r.2 [("idt0", 0)] = .ok σ ∧
      r.1.solve (gaussJordan (1 / 1000) probe) σ = .ok solution ∧
      ∃ (a : Quantity Rat) (q : Equation Rat), solution.auxiliaries = [a] ∧ a.name = "idt0" ∧
        (Outline.ofSystem "M" r.1 solution none).support = [q] ∧ q.lhs = .number 0 ∧
        q.lhs ≠ .symbol a.symbol := by
  intro steps r probe
  let σ : Substitution Rat := ⟨[(⟨3, "idt0"⟩, .number 0)]⟩
  have hsolver := eq_ok_getD (y := gaussJordan (1 / 1000) probe (r.1.substituted σ) r.1.unknowns)
    (by decide +kernel)
  have hsolve := r.1.solve_gaussJordan σ (1 / 1000) probe
  rw [hsolver] at hsolve
  exact ⟨σ, _, rfl, hsolve, _, _, rfl, rfl, rfl, rfl, nofun⟩

end Kirchhoff
