import Mathlib.Algebra.Field.Rat
import Kirchhoff.Generation.Outline
import Kirchhoff.Proofs.Linear.Affine
import Kirchhoff.Proofs.Substitution
import Kirchhoff.Proofs.Synthesis.Declared
import Kirchhoff.Proofs.Synthesis.Support

/-!
# What a generated class declares

The variables of a class are what the session has declared. A solution mentions nothing but unknowns
and what the equations mention (`System.solve_within`), and these mention what the session has
declared: so a class declares what it uses (`Outline.declares_used`). Substitutions are those of
numbers, as assignments give them (`Substitution.isNumeric_ofAssignments`).

The names of each kind are distinct, but names of different kinds are kept apart by nothing: an edge
may have the name of a parameter. And a parameter that has a number is no variable, although its
symbol can be used (`Outline.exists_members_repeated`).
-/

namespace Kirchhoff

open Kirchhoff.Expr

variable {α : Type}

/-! ### Solutions -/

section

variable [Scalar α] {P : Symbol → Prop}

theorem Substitution.IsNumeric.within_equation {σ : Substitution α} (hσ : σ.IsNumeric)
    {q : Equation α} (h : q.Within P) : (σ.applyEquation q).Within P := by
  rw [σ.applyEquation_eq]
  exact ⟨hσ.within h.1, hσ.within h.2⟩

/-- The equations of a solution mention unknowns and what the equations of the system mention. -/
theorem System.solve_within {s : System α} {tolerance : α} {probe : Symbol → α}
    {σ : Substitution α} {solution : Solution α}
    (h : s.solve (gaussJordan tolerance probe) σ = .ok solution) (hσ : σ.IsNumeric)
    (hequations : ∀ q ∈ s.equations, q.Within P) (hunknowns : ∀ u ∈ s.unknowns, P u) :
    ∀ q ∈ solution.equations, q.Within P := by
  obtain ⟨hsolver, -, -⟩ := System.solve_spec h
  obtain ⟨system, hsystem⟩ := Gauge.exists_linearSystem_of_solve hsolver
  intro q hq
  refine ⟨?_, Gauge.solve_within hsystem hsolver (fun row hrow => ?_) q hq⟩
  · obtain ⟨u, hu, hlhs⟩ := (Gauge.solve_isClosed hsolver).exists_lhs hq
    rw [hlhs]
    exact within_symbol_iff.2 (hunknowns u hu)
  · obtain ⟨q', hq', hrow⟩ := exists_left_of_forall₂ (linearSystem_rows hsystem) hrow
    obtain ⟨q₀, hq₀, rfl⟩ := List.mem_map.1 hq'
    have hwithin := hσ.within_equation (hequations q₀ hq₀)
    exact Equation.linearRow?_within_of hrow hwithin.1 hwithin.2

end

/-! ### Classes -/

namespace Outline

/-- The name is that of the potential or the flow of an edge of the class, of one of its parameters
or auxiliaries, or of the timestep where the class has to ask for it. -/
def Declares (o : Outline α) (name : String) : Prop :=
  (∃ e ∈ o.edges, name = e ++ ".pot" ∨ name = e ++ ".flw") ∨ name ∈ o.parameters ∨
    name ∈ o.auxiliaries ∨ (o.timestep = none ∧ name = Context.timestepName)

theorem mem_sortNames {name : String} {names : List String} :
    name ∈ sortNames names ↔ name ∈ names :=
  (List.mergeSort_perm names _).mem_iff

theorem nodup_sortNames {names : List String} : (sortNames names).Nodup ↔ names.Nodup :=
  (List.mergeSort_perm names _).nodup_iff

/-- The variables of a class are distinct if those of each kind are, and no name is of two kinds. -/
theorem nodup_members_iff {o : Outline α} (hedges : o.edges.Nodup)
    (hparameters : o.parameters.Nodup) (hauxiliaries : o.auxiliaries.Nodup) :
    o.members.Nodup ↔ o.edges.Disjoint o.parameters ∧ o.edges.Disjoint o.auxiliaries ∧
      o.parameters.Disjoint o.auxiliaries := by
  rw [members, List.nodup_append', List.nodup_append', List.disjoint_append_left]
  tauto

variable [Scalar α] {p : Progress α} {solution : Solution α} {matrix : Option (Matrix α)}
  {name : String}

/-- The parameters of a class are those without a number. -/
theorem mem_parameters_ofSystem {n : String} :
    n ∈ (ofSystem name p.finish.1 solution matrix).parameters ↔
      ∃ a ∈ p.parameters, a.name = n ∧ a.number = none := by
  have hreplaced (a : Quantity α) : (!a.isReplaced) = true ↔ a.number = none := by
    simp [Quantity.isReplaced]
  refine mem_sortNames.trans (List.mem_map.trans (exists_congr fun a => ?_))
  rw [List.mem_filter, hreplaced, and_assoc, and_comm (b := a.name = n)]
  rfl

/-- The class declares what the session declares. -/
theorem declares_of_declares {s : Symbol} (h : p.Declares s)
    (hsolution : solution.auxiliaries = p.discretization.auxiliaries) :
    (ofSystem name p.finish.1 solution matrix).Declares s.name := by
  have hgrows := p.topology.isGrowing_analyze p.context
  obtain ⟨e, he, hname⟩ | ⟨a, ha, hnumber, hname⟩ | ⟨a, ha, hname⟩ | ⟨hstep, hname⟩ := h
  · exact .inl ⟨e.name, mem_sortNames.2 (List.mem_map_of_mem he), hname⟩
  · exact .inr (.inl (mem_parameters_ofSystem.2 ⟨a, ha, hname, hnumber⟩))
  · refine .inr (.inr (.inl (mem_sortNames.2 (List.mem_map.2 ⟨a, ?_, hname⟩))))
    rwa [hsolution]
  · rw [← Context.stepNumber_congr hgrows.timestep] at hstep
    exact .inr (.inr (.inr ⟨hstep, hname⟩))

/-- **A class declares what it uses.** In the class of a script that is solved after a substitution
of numbers, no two edges have the same name, and neither do two parameters or two auxiliaries. So
the variables are distinct unless one name is of two kinds. The parameters are the names that are
first declared without a number. The assignments mention only the potentials and flows of the edges,
the parameters and the auxiliaries, and the timestep if it is a symbol, unless a step leaves the
symbol of a name that is first declared with a number. -/
theorem declares_used {k : Context α} (hk : k.IsReached) {steps : List (Step α)}
    (hsteps : ∀ name, .symbol name ∉ steps) {σ : Substitution α} (hσ : σ.IsNumeric) {tolerance : α}
    {probe : Symbol → α}
    (h : (synthesize (Script.model steps) k).1.solve (gaussJordan tolerance probe) σ = .ok solution)
    (name : String) (matrix : Option (Matrix α)) :
    let o := ofSystem name (synthesize (Script.model steps) k).1 solution matrix
    (o.edges.Nodup ∧ o.parameters.Nodup ∧ o.auxiliaries.Nodup) ∧
      (o.members.Nodup ↔ o.edges.Disjoint o.parameters ∧ o.edges.Disjoint o.auxiliaries ∧
        o.parameters.Disjoint o.auxiliaries) ∧
      (∀ n, n ∈ o.parameters ↔ (Script.declarations steps).lookup n = some none) ∧
      ∀ q ∈ o.assignments ++ o.support, q.Within fun x =>
        o.Declares x.name ∨ (Script.IsConstant steps x.name ∧ Script.Exposes steps x.name) := by
  intro o
  let p : Progress α := Progress.run { toSession := { context := k } } steps
  change p.finish.1.solve (gaussJordan tolerance probe) σ = .ok solution at h
  have hstart := Progress.isSound_start hk.isSound
  have hlistedStart := Progress.isListed_start k
  have hsound : p.IsSound := hstart.run steps
  have hlisted : p.IsListed := hlistedStart.run hstart steps
  have hcovered : p.IsCovered (Script.Exposes steps) :=
    (Progress.isCovered_start _ k).run hstart hlistedStart hsteps fun _ => id
  have hregistered : p.topology.IsRegistered := Progress.isRegistered_run .empty steps
  have hregistry (n : String) : p.registry.lookup n = (Script.declarations steps).lookup n :=
    hlistedStart.lookup_registry_run hstart steps n
  obtain ⟨-, hsupport, hauxiliaries⟩ := System.solve_spec h
  have hedges : o.edges.Nodup := nodup_sortNames.2 hregistered.nodup_names
  have hparameters : o.parameters.Nodup :=
    nodup_sortNames.2 (hlisted.nodup.sublist (List.filter_sublist.map _))
  have hnames : o.auxiliaries.Nodup := nodup_sortNames.2 (hauxiliaries ▸ hsound.nodup_auxiliaries)
  refine ⟨⟨hedges, hparameters, hnames⟩, nodup_members_iff hedges hparameters hnames,
    fun n => ?_, fun q hq => ?_⟩
  · rw [← hregistry, hlisted.lookup_registry_iff]
    exact mem_parameters_ofSystem
  · have hwithin : q.Within (p.Admits (Script.Exposes steps)) := by
      obtain hq | hq := List.mem_append.1 hq
      · exact System.solve_within h hσ hcovered.equations hcovered.unknowns q hq
      · rw [show o.support = _ from hsupport] at hq
        obtain ⟨r, hr, rfl⟩ := List.mem_map.1 hq
        exact hσ.within_equation (hcovered.support r hr)
    refine hwithin.imp fun s hs => ?_
    obtain hdeclared | ⟨hexposed, a, ha, hnumber, hname⟩ := hs
    · exact .inl (declares_of_declares hdeclared hauxiliaries)
    · obtain ⟨v, hv⟩ := Option.ne_none_iff_exists'.1 hnumber
      have hlookup : p.registry.lookup s.name = some (some v) :=
        hlisted.lookup_registry_iff.2 ⟨a, ha, hname, hv⟩
      exact .inr ⟨⟨v, (hregistry s.name).symm.trans hlookup⟩, hexposed⟩

/-- A resistor at a source of a number and an integral: the resistance is given a number when the
system is solved. -/
theorem declares_used_resistor :
    let source : Edge := .between (.ground "g") ⟨"a", false⟩ "V0"
    let resistor : Edge := .between ⟨"a", false⟩ (.ground "g") "R0"
    let steps : List (Step Rat) := [.potential source, .flow source, .potential resistor,
      .flow resistor, .parameter "r", .constant "u" 5, .integral (.result 3),
      .relate (.result 0) (.sum [.result 5, .result 6]),
      .relate (.result 2) (.product [.result 4, .result 3]),
      .unknown (.result 0), .unknown (.result 1), .unknown (.result 2), .unknown (.result 3)]
    let r := synthesize (Script.model steps) Context.new
    ∃ σ solution, Substitution.ofAssignments r.2 [("r", 2)] = .ok σ ∧
      r.1.solve (gaussJordan (1 / 1000) fun x => x.id + 1) σ = .ok solution ∧
      let o := ofSystem "M" r.1 solution none
      o.members.Nodup ∧ ∀ q ∈ o.assignments ++ o.support, q.Within fun x => o.Declares x.name := by
  intro source resistor steps r
  let σ : Substitution Rat := ⟨[(⟨5, "r"⟩, .number 2)]⟩
  have hlookup : (r.2.lookup "r").map (fun s => (s.id, s.name)) = some (5, "r") := by
    decide +kernel
  have hσ : Substitution.ofAssignments r.2 [("r", 2)] = .ok σ := by
    obtain ⟨⟨id, name⟩, hs, hsymbol⟩ := Option.map_eq_some_iff.1 hlookup
    obtain ⟨rfl, rfl⟩ := Prod.mk.inj hsymbol
    simp only [Substitution.ofAssignments, List.foldlM_cons, hs]
    rfl
  have hnames : (r.1.solve (gaussJordan (1 / 1000) fun x => x.id + 1) σ).toOption.map
      (·.auxiliaries.map (·.name)) = some ["idt0"] := by decide +kernel
  cases hsolution : r.1.solve (gaussJordan (1 / 1000) fun x => x.id + 1) σ with
  | error e =>
    rw [hsolution] at hnames
    cases hnames
  | ok solution =>
    rw [hsolution] at hnames
    have hsteps : ∀ name, Step.symbol name ∉ steps := by simp [steps]
    have hfresh (n : String) : ¬ (Script.IsConstant steps n ∧ Script.Exposes steps n) := by
      rintro ⟨⟨v, hv⟩, hexposed⟩
      obtain rfl : n = "r" := by
        simpa [Script.Exposes, steps, Step.exposed?, eq_comm] using hexposed
      have hfirst : (Script.declarations steps).lookup "r" = some none := rfl
      cases hfirst.symm.trans hv
    obtain ⟨-, hmembers, -, hwithin⟩ :=
      declares_used ⟨[], rfl⟩ hsteps (Substitution.isNumeric_ofAssignments hσ) hsolution "M" none
    let o := ofSystem "M" r.1 solution none
    have hedges : o.edges = sortNames ["V0", "R0"] := congrArg sortNames (by decide +kernel)
    have hparameters : o.parameters = sortNames ["r"] := congrArg sortNames (by decide +kernel)
    have hauxiliaries : o.auxiliaries = sortNames ["idt0"] :=
      congrArg sortNames (Option.some.inj hnames)
    refine ⟨σ, solution, hσ, hsolution, hmembers.2 ?_,
      fun q hq => (hwithin q hq).imp fun x hx => hx.resolve_right (hfresh x.name)⟩
    change o.edges.Disjoint o.parameters ∧ o.edges.Disjoint o.auxiliaries ∧
      o.parameters.Disjoint o.auxiliaries
    rw [hedges, hparameters, hauxiliaries]
    simp [List.Disjoint, mem_sortNames]

/-- A name may be that of an edge and of a parameter, and is then a variable twice. A parameter that
has a number is no variable, and is used all the same, whether it is declared again without the
number or its symbol is taken. -/
theorem exists_members_repeated :
    let edge : Edge := .between (.ground "g") ⟨"a", false⟩ "R0"
    let steps : List (Step Rat) := [.parameter "R0", .constant "r" 2, .parameter "r",
      .constantSymbol "s" 3, .potential edge, .flow edge,
      .relate (.result 4) (.sum [.result 2, .result 3]), .unknown (.result 4),
      .unknown (.result 5)]
    let s := (synthesize (Script.model steps) Context.new).1
    ∃ solution, s.solve (gaussJordan (1 / 1000) fun x => x.id + 1) .empty = .ok solution ∧
      let o := ofSystem "M" s solution none
      o.members = ["R0", "R0"] ∧ ¬ o.Declares "r" ∧ ¬ o.Declares "s" ∧
        ∃ q ∈ o.assignments, q.rhs.symbols.map (·.name) = ["r", "s"] := by
  intro edge steps s
  have hnames : (s.solve (gaussJordan (1 / 1000) fun x => x.id + 1) .empty).toOption.map
      (fun x => (x.equations.map (·.rhs.symbols.map (·.name)), x.auxiliaries.map (·.name))) =
      some ([["r", "s"], []], []) := by decide +kernel
  cases hsolution : s.solve (gaussJordan (1 / 1000) fun x => x.id + 1) .empty with
  | error e =>
    rw [hsolution] at hnames
    cases hnames
  | ok solution =>
    rw [hsolution] at hnames
    obtain ⟨hrights, hnone⟩ := Prod.mk.inj (Option.some.inj hnames)
    let o := ofSystem "M" s solution none
    have hedges : o.edges = ["R0"] := (congrArg sortNames (by decide +kernel)).trans
      (List.mergeSort_singleton "R0")
    have hparameters : o.parameters = ["R0"] := (congrArg sortNames (by decide +kernel)).trans
      (List.mergeSort_singleton "R0")
    have hauxiliaries : o.auxiliaries = [] := (congrArg sortNames hnone).trans List.mergeSort_nil
    have hdeclares (n : String) : o.Declares n ↔ (n = "R0.pot" ∨ n = "R0.flw") ∨ n = "R0" ∨
        (o.timestep = none ∧ n = Context.timestepName) := by
      rw [Declares, hedges, hparameters, hauxiliaries]
      simp
    refine ⟨solution, rfl, ?_, ?_, ?_, ?_⟩
    · show o.edges ++ o.parameters ++ o.auxiliaries = _
      rw [hedges, hparameters, hauxiliaries]
      rfl
    · exact (hdeclares "r").not.2 (by simp [Context.timestepName])
    · exact (hdeclares "s").not.2 (by simp [Context.timestepName])
    · exact List.mem_map.1 (hrights ▸ List.mem_cons_self)

end Outline

end Kirchhoff
