import Mathlib.Algebra.Field.Rat
import Kirchhoff.Generation.Outline
import Kirchhoff.Proofs.Expr.Execution
import Kirchhoff.Proofs.Linear.Cofactors
import Kirchhoff.Proofs.Synthesis.Script

/-!
# What the coefficients of a linear system depend on

A class that solves the linear system sets up the matrix once, and each run then refreshes the
auxiliaries. This is right as long as no coefficient mentions what is refreshed.

The coefficients are made of the expressions by which unknowns are multiplied (`Expr.cofactors`), so
that it is enough to look at these (`System.coefficients_run`). The result of an operator may be one
of them: then the matrix has to be set up again after each run (`exists_coefficient_refreshed`).
-/

namespace Kirchhoff

open Kirchhoff.Expr Environment

variable {α : Type} [Scalar α] {unknowns : List Symbol} {P : Symbol → Prop}

theorem Matrix.mem_entries {m : Matrix α} {i j : ℕ} {e : Expr α} (h : (i, j, e) ∈ m.entries) :
    ∃ row ∈ m.rows, e ∈ row.coefficients := by
  obtain ⟨⟨row, i'⟩, hrow, he⟩ := List.mem_flatMap.1 h
  obtain ⟨⟨e', j'⟩, he', heq⟩ := List.mem_map.1 he
  obtain ⟨rfl, rfl, rfl⟩ : i' = i ∧ j' = j ∧ e' = e := by simpa using heq
  exact ⟨row, List.fst_mem_of_mem_zipIdx hrow,
    List.fst_mem_of_mem_zipIdx (List.mem_filter.1 he').1⟩

theorem System.rows_of_matrix {s : System α} {σ : Substitution α} {m : Matrix α}
    (h : s.matrix σ = .ok m) : s.rows σ = .ok m.rows := by
  unfold System.matrix at h
  cases hrows : s.rows σ with
  | error r => simp [hrows, bind, Except.bind] at h
  | ok rows =>
    rw [hrows] at h
    obtain rfl := Except.ok.inj h
    rfl

/-- The coefficients of a row are made of the cofactors of the unknowns. -/
theorem Equation.coefficients_within {q : Equation α} {row : LinearRow α}
    (h : q.linearRow? unknowns = some row)
    (hP : ∀ c ∈ q.residual.cofactors unknowns, c.Within P) :
    ∀ e ∈ row.coefficients, e.Within P := by
  obtain ⟨form, hform, rfl⟩ := linearRow?_eq_some h
  have hwithin := LinearForm.within_of_linearForm? hform hP fun _ _ => trivial
  exact List.forall_mem_map.2 fun j _ => form.within_coefficient hwithin.coefficients j

/-- **The matrix stays valid.** When the system is linear after a substitution, and no unknown is
multiplied by an expression that depends on a symbol which the support equations write, then no
entry of the matrix mentions such a symbol, and running the support equations leaves the value of
every entry as it is. -/
theorem System.coefficients_run (s : System α) (σ : Substitution α) {m : Matrix α}
    (hm : s.matrix σ = .ok m)
    (h : ∀ q ∈ s.substituted σ, ∀ c ∈ q.residual.cofactors s.unknowns,
      c.dependsOn (written (s.support.map σ.applyEquation)) = false) :
    ∀ i j e, (i, j, e) ∈ m.entries →
      (∀ a ∈ written (s.support.map σ.applyEquation), e.mentions a = false) ∧
      ∀ ρ : Environment α, e.eval (ρ.run (s.support.map σ.applyEquation)).toValuation =
        e.eval ρ.toValuation := by
  intro i j e he
  obtain ⟨row, hrow, he⟩ := Matrix.mem_entries he
  obtain ⟨q, hq, hqrow⟩ :=
    exists_left_of_forall₂ (linearSystem_rows (System.rows_of_matrix hm)) hrow
  have hwithin : e.Within (IsOther (written (s.support.map σ.applyEquation))) :=
    Equation.coefficients_within hqrow (fun c hc => dependsOn_eq_false_iff.1 (h q hq c hc)) e he
  exact ⟨fun a ha => mentions_eq_false hwithin ha, fun ρ => eval_run ρ hwithin⟩

/-- A relation that sets an integral equal to a parameter times the unknown: the parameter is the
only entry. -/
theorem System.coefficients_run_integral :
    let steps : List (Step Rat) := [.parameter "p", .symbol "x", .unknown (.result 1),
      .integral (.result 0), .relate (.result 2) (.product [.result 0, .result 1])]
    let s := (synthesize (Script.model steps) Context.new).1
    let support := s.support.map Substitution.empty.applyEquation
    ∃ m, s.matrix .empty = .ok m ∧ m.entries.length = 1 ∧
      ∀ i j e, (i, j, e) ∈ m.entries →
        ∀ ρ : Environment Rat, e.eval (ρ.run support) = e.eval ρ := by
  intro steps s support
  have hcofactors : ∀ q ∈ s.substituted .empty, ∀ c ∈ q.residual.cofactors s.unknowns,
      c.dependsOn (written support) = false := by decide +kernel
  have hlength : (s.matrix .empty).toOption.map (·.entries.length) = some 1 := by decide +kernel
  cases hm : s.matrix .empty with
  | error e => simp [hm, Except.toOption] at hlength
  | ok m =>
    rw [hm] at hlength
    exact ⟨m, rfl, Option.some.inj hlength, fun i j e he =>
      (System.coefficients_run s .empty hm hcofactors i j e he).2⟩

/-- The auxiliary of an integral is in a coefficient when the integral is multiplied by an unknown.
Here the entry is `1` when the matrix is set up, and `2` after the first run. -/
theorem exists_coefficient_refreshed :
    let steps : List (Step Rat) := [.parameter "p", .symbol "x", .unknown (.result 1),
      .integral (.result 0), .relate (.product [.result 2, .result 1]) (.number 1)]
    let s := (synthesize (Script.model steps) Context.new).1
    let support := s.support.map Substitution.empty.applyEquation
    let ρ : Environment Rat := .ofIds fun i => if i < 2 then some 1 else some 0
    let entries := ((s.matrix .empty).toOption.map (·.entries)).getD []
    (written support).map (·.name) = ["idt0"] ∧
      entries.all (fun p => (written support).any (p.2.2.mentions ·)) = true ∧
      entries.map (fun p => p.2.2.eval ρ) = [some 1] ∧
      entries.map (fun p => p.2.2.eval (ρ.run support)) = [some 2] :=
  ⟨by decide +kernel, by decide +kernel, by decide +kernel, by decide +kernel⟩

end Kirchhoff
