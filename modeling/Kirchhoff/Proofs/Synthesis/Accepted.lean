import Kirchhoff.Proofs.Expr.Calls
import Kirchhoff.Proofs.Synthesis.Declared

/-!
# Equations that a session keeps

Of the equations that the steps of a session hand in (`Progress.submitted`), those without calls are
kept in their order and the others are counted (`Progress.relations_run`, `Progress.dropped_run`).
What else a step leaves behind, an edge or an auxiliary, stays even if the equation it was taken for
is not kept. The laws of the network call no functions either, so none of the equations of a system
has a call (`Progress.equations_of_run`).
-/

namespace Kirchhoff

open Kirchhoff.Expr

variable {α : Type} [Scalar α]

/-- The laws of a network call no functions. -/
theorem Topology.IsAnalysis.isCallFree {t : Topology} {k : Context α} {a : Analysis α}
    (h : t.IsAnalysis k a) : ∀ q ∈ a.potentialLaws ++ a.flowLaws, q.IsCallFree := fun q hq =>
  Equation.isCallFree_iff.2 (h.forall_sides hereditary_isCallFree
    (fun _ _ s _ => isCallFree_symbol s) (fun _ _ s _ => isCallFree_symbol s) q hq)

omit [Scalar α] in
/-- Only equations without calls are kept. -/
theorem Session.equation_iff {s : Session α} {q : Equation α} :
    (Session.equation q s).1 = true ↔ q.IsCallFree := by
  rw [← Equation.isSupported_iff, Session.equation]
  by_cases hq : q.isSupported = true
  · simp [hq]
  · simp [hq]

namespace Progress

variable (p : Progress α)

/-! ### Equations that are handed in -/

/-- The equation that a step hands in. -/
def submission? : Step α → Option (Equation α)
  | .relate lhs rhs => some ⟨lhs.expr p.results, rhs.expr p.results⟩
  | _ => none

/-- The equations that the steps hand in, one after another. -/
def submitted (p : Progress α) : List (Step α) → List (Equation α)
  | [] => []
  | st :: steps => (p.submission? st).toList ++ (p.step st).submitted steps

/-- A step keeps the equation that it hands in if this is supported, and otherwise counts it. -/
theorem relations_step (st : Step α) :
    (p.step st).relations = p.relations ++ (p.submission? st).toList.filter (·.isSupported) ∧
      (p.step st).dropped = p.dropped + (p.submission? st).toList.countP (!·.isSupported) := by
  rw [step_eq_change]
  cases st with
  | relate lhs rhs =>
    by_cases hq : (⟨lhs.expr p.results, rhs.expr p.results⟩ : Equation α).isSupported = true
    · simp [change, submission?, relate, hq]
    · simp [change, submission?, relate, hq]
  | _ => exact ⟨(List.append_nil _).symm, rfl⟩

/-- A session keeps the supported ones of the equations that are handed in. -/
theorem relations_run (steps : List (Step α)) :
    (p.run steps).relations = p.relations ++ (p.submitted steps).filter (·.isSupported) := by
  induction steps generalizing p with
  | nil => exact (List.append_nil _).symm
  | cons st steps ih =>
    calc ((p.step st).run steps).relations
      _ = (p.step st).relations ++ ((p.step st).submitted steps).filter (·.isSupported) := ih _
      _ = p.relations ++ (p.submitted (st :: steps)).filter (·.isSupported) := by
        rw [(p.relations_step st).1, submitted, List.filter_append, List.append_assoc]

/-- A session counts the other equations. -/
theorem dropped_run (steps : List (Step α)) :
    (p.run steps).dropped = p.dropped + (p.submitted steps).countP (!·.isSupported) := by
  induction steps generalizing p with
  | nil => rfl
  | cons st steps ih =>
    calc ((p.step st).run steps).dropped
      _ = (p.step st).dropped + ((p.step st).submitted steps).countP (!·.isSupported) := ih _
      _ = p.dropped + (p.submitted (st :: steps)).countP (!·.isSupported) := by
        rw [(p.relations_step st).2, submitted, List.countP_append, Nat.add_assoc]

/-- Equations that are handed in at once are handed in one after another. -/
theorem act_equations (sides : List (Operand α × Operand α)) :
    p.act (Session.equations (sides.map fun s => ⟨s.1.expr p.results, s.2.expr p.results⟩)) =
      p.run (sides.map fun s => .relate s.1 s.2) := by
  -- A relation leaves the results as they are, so that the operands that are left read the same.
  suffices h : ∀ q : Progress α, q.results = p.results →
      q.act (Session.equations (sides.map fun s => ⟨s.1.expr p.results, s.2.expr p.results⟩)) =
        q.run (sides.map fun s => .relate s.1 s.2) from h p rfl
  induction sides with
  | nil => exact fun q _ => rfl
  | cons s sides ih =>
    intro q hq
    calc q.act (Session.equations ((s :: sides).map _))
      _ = (q.step (.relate s.1 s.2)).act (Session.equations (sides.map _)) := by
        rw [← hq]
        rfl
      _ = (q.step (.relate s.1 s.2)).run (sides.map fun s => .relate s.1 s.2) :=
        ih _ hq

/-! ### The equations of the system -/

variable {p}

theorem isCallFree_equations (h : ∀ q ∈ p.relations, q.IsCallFree) :
    ∀ q ∈ p.finish.1.equations, q.IsCallFree := by
  intro q hq
  rw [System.equations, List.append_assoc] at hq
  exact (List.mem_append.1 hq).elim (h q) ((p.topology.isAnalysis p.context).isCallFree q)

/-- **Only equations without calls enter a system.** The functions that an equation is rejected for
are those that its nodes call, in their order, and it is kept exactly when there is none. Equations
that are handed in at once are handed in one after another.

Whatever steps are taken in whatever context, with any expressions at hand from outside: the
relations of the system are the equations without calls that were handed in, in this order, and
together with those that are counted they are all that were handed in. No equation of the system has
a call, the laws included. -/
theorem equations_of_run (k : Context α) (outside : List (Expr α)) (steps : List (Step α)) :
    let start : Progress α := { toSession := { context := k }, results := outside }
    let p := start.run steps
    let submitted := start.submitted steps
    (∀ q : Equation α, q.unsupported = q.nodes.filterMap Expr.function? ∧
      (q.isSupported = true ↔ q.IsCallFree) ∧
      ∀ s : Session α, (Session.equation q s).1 = true ↔ q.IsCallFree) ∧
    (∀ (r : Progress α) (sides : List (Operand α × Operand α)),
      r.act (Session.equations (sides.map fun s => ⟨s.1.expr r.results, s.2.expr r.results⟩)) =
        r.run (sides.map fun s => .relate s.1 s.2)) ∧
    p.finish.1.relations = submitted.filter (·.isSupported) ∧
    p.finish.1.relations.length + p.dropped = submitted.length ∧
    ∀ q ∈ p.finish.1.equations, q.IsCallFree := by
  intro start p submitted
  have hrelations : p.relations = submitted.filter (·.isSupported) := start.relations_run steps
  have hdropped : p.dropped = submitted.countP (!·.isSupported) :=
    (start.dropped_run steps).trans (Nat.zero_add _)
  refine ⟨fun q => ⟨q.unsupported_eq_nodes, Equation.isSupported_iff, fun _ =>
    Session.equation_iff⟩, act_equations, hrelations, ?_, isCallFree_equations fun q hq => ?_⟩
  · rw [show p.finish.1.relations = _ from hrelations, hdropped, ← List.countP_eq_length_filter]
    simpa using (List.length_eq_countP_add_countP (fun q : Equation α => q.isSupported)).symm
  · rw [hrelations] at hq
    exact Equation.isSupported_iff.1 (List.mem_filter.1 hq).2

/-- An equation with the integral of an exponential is not kept. The edge and the auxiliary stay,
and the call stands in the equation that refreshes the auxiliary. -/
example :
    let d : Edge := ⟨⟨"a", false⟩, .ground "g", "D0"⟩
    let steps : List (Step Rat) := [.potential d, .flow d, .integral (.call "exp" [.result 0]),
      .relate (.result 1) (.result 2), .relate (.result 1) (.number 2)]
    let p := Progress.run { toSession := { context := .new } } steps
    let s := p.finish.1
    s.relations.length = 1 ∧ p.dropped = 1 ∧ s.topology.edges.length = 1 ∧
      s.auxiliaries.map (·.name) = ["idt0"] ∧ s.support.flatMap (·.unsupported) = ["exp"] ∧
      s.equations.flatMap (·.unsupported) = [] := by
  decide +kernel

end Progress

end Kirchhoff
