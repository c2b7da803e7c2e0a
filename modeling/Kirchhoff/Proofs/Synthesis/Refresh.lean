import Kirchhoff.Proofs.Expr.Execution
import Kirchhoff.Proofs.Synthesis.Reached

/-!
# Refreshing the auxiliaries

After a step is solved, the support equations are run as assignments, in the order in which their
operators were used. Each refreshes one auxiliary, and its right side is meant to be read at the
values from before.

An operand may contain the result of an operator that was used before. The right side then mentions
an auxiliary that has been refreshed already, and the run leaves another value
(`exists_refresh_differs`). A right side never mentions an auxiliary that comes after its own, so
that the reverse order is right for all, and the order of use for operators that are not nested
(`refresh_reverse`).
-/

namespace Kirchhoff

open Kirchhoff.Expr Environment

variable {α : Type}

/-- What comes later is written later, and is not read before. -/
def IsLater (q r : Equation α) : Prop :=
  ∃ a b : Symbol, q.lhs = .symbol a ∧ r.lhs = .symbol b ∧ a.id < b.id ∧
    q.rhs.Within (·.id ≤ a.id)

theorem Progress.IsSound.pairwise_support {p : Progress α} (h : p.IsSound) :
    p.discretization.support.Pairwise IsLater :=
  (pairwise_of_forall₂ h.refreshes h.increasing).imp
    fun ⟨a, b, hq, hr, hlt⟩ => ⟨a.symbol, b.symbol, hq.1, hr.1, hlt, hq.2⟩

section

variable {q r : Equation α} {qs rs : List (Equation α)} {a b s : Symbol}

theorem IsLater.id_lt (h : IsLater q r) (hq : q.lhs = .symbol a) (hr : r.lhs = .symbol b) :
    a.id < b.id := by
  obtain ⟨a', b', ha, hb, hlt, -⟩ := h
  obtain rfl := Expr.symbol.inj (hq.symm.trans ha)
  obtain rfl := Expr.symbol.inj (hr.symm.trans hb)
  exact hlt

theorem isOther_written (h : ∀ r ∈ qs, ∀ b, r.lhs = .symbol b → b.id ≠ s.id) :
    IsOther (written qs) s := by
  intro b hb
  obtain ⟨r, hr, hrb⟩ := mem_written.1 hb
  rw [← Bool.not_eq_true, Symbol.beq_iff]
  exact h r hr b hrb

/-- What is written later is younger. -/
theorem isOther_of_later (h : ∀ r ∈ qs, IsLater q r) (hq : q.lhs = .symbol a) (hs : s.id ≤ a.id) :
    IsOther (written qs) s :=
  isOther_written fun r hr _ hb => (hs.trans_lt ((h r hr).id_lt hq hb)).ne'

/-- What is written earlier is older. -/
theorem isOther_of_earlier (h : ∀ r ∈ qs, IsLater r q) (hq : q.lhs = .symbol a) :
    IsOther (written qs) a :=
  isOther_written fun r hr _ hb => ((h r hr).id_lt hb hq).ne

variable [Scalar α] (ρ : Environment α)

/-- In the order in which they are written down, an equation is run after those before it. -/
theorem symbol_run_of_pairwise (h : (qs ++ q :: rs).Pairwise IsLater) (hq : q.lhs = .symbol a)
    (hrhs : q.rhs.Within (IsOther (written qs))) :
    (ρ.run (qs ++ q :: rs)).symbol a = q.rhs.eval ρ := by
  obtain ⟨-, hrest, -⟩ := List.pairwise_append.1 h
  exact symbol_run ρ qs rs hq hrhs (isOther_of_later (List.pairwise_cons.1 hrest).1 hq le_rfl)

/-- In reverse, an equation is run after those that come later, which it does not mention. -/
theorem symbol_run_reverse (h : (qs ++ q :: rs).Pairwise IsLater) (hq : q.lhs = .symbol a)
    (hrhs : q.rhs.Within (·.id ≤ a.id)) :
    (ρ.run (qs ++ q :: rs).reverse).symbol a = q.rhs.eval ρ := by
  obtain ⟨-, hrest, hqs⟩ := List.pairwise_append.1 h
  have hlater : ∀ r ∈ rs.reverse, IsLater q r := fun r hr =>
    (List.pairwise_cons.1 hrest).1 r (List.mem_reverse.1 hr)
  have hearlier : ∀ r ∈ qs.reverse, IsLater r q := fun r hr =>
    hqs r (List.mem_reverse.1 hr) q List.mem_cons_self
  rw [List.reverse_append, List.reverse_cons, List.append_assoc, List.singleton_append]
  exact symbol_run ρ rs.reverse qs.reverse hq
    (fun s hs => isOther_of_later hlater hq (hrhs s hs)) (isOther_of_earlier hearlier hq)

end

variable [Scalar α]

/-- **The order of refreshing.** Whatever script is synthesized in a context that was reached, every
auxiliary has its support equation. Run in reverse, the support equations leave in each auxiliary
the value that its right side has beforehand. Run in the order of use, they do so for an auxiliary
whose right side mentions none that comes before it. -/
theorem refresh_reverse {k : Context α} (hk : k.IsReached) (steps : List (Step α))
    (ρ : Environment α) :
    let s := (synthesize (Script.model steps) k).1
    ∀ (i : ℕ) (a : Quantity α), s.auxiliaries[i]? = some a →
      ∃ q : Equation α, s.support[i]? = some q ∧ q.lhs = .symbol a.symbol ∧
        (ρ.run s.support.reverse).symbol a.symbol = q.rhs.eval ρ ∧
        (q.rhs.Within (IsOther (written (s.support.take i))) →
          (ρ.run s.support).symbol a.symbol = q.rhs.eval ρ) := by
  intro s i a ha
  have hsound := (Progress.isSound_start hk.isSound).run steps
  have hpairwise : s.support.Pairwise IsLater := hsound.pairwise_support
  have hrefreshes : List.Forall₂ Refreshes s.support s.auxiliaries := hsound.refreshes
  obtain ⟨hi, rfl⟩ := List.getElem?_eq_some_iff.1 ha
  have hi' : i < s.support.length := hrefreshes.length_eq ▸ hi
  obtain ⟨hlhs, hrhs⟩ : Refreshes s.support[i] s.auxiliaries[i] := hrefreshes.get hi' hi
  have hsplit : s.support = s.support.take i ++ s.support[i] :: s.support.drop (i + 1) := by
    rw [← List.drop_eq_getElem_cons hi', List.take_append_drop]
  refine ⟨s.support[i], List.getElem?_eq_getElem hi', hlhs, ?_, fun hbefore => ?_⟩
  · rw [hsplit] at hpairwise
    have hreverse := symbol_run_reverse ρ hpairwise hlhs hrhs
    rwa [← hsplit] at hreverse
  · rw [hsplit] at hpairwise
    have hrun := symbol_run_of_pairwise ρ hpairwise hlhs hbefore
    rwa [← hsplit] at hrun

/-- The rate of an integral: the rate is refreshed by an integral that has been refreshed before. -/
theorem refresh_reverse_nested :
    let steps : List (Step Rat) := [.symbol "x", .integral (.result 0), .derivative (.result 1)]
    let s := (synthesize (Script.model steps) Context.new).1
    let ρ : Environment Rat := .ofIds fun i => if i < 2 then some 1 else some 0
    ∃ q : Equation Rat, s.support[1]? = some q ∧
      (ρ.run s.support.reverse).symbol ⟨3, "ddt0"⟩ = q.rhs.eval ρ := by
  intro steps s ρ
  have ha : s.auxiliaries[1]? = some ⟨⟨3, "ddt0"⟩, none⟩ := rfl
  obtain ⟨q, hq, -, hreverse, -⟩ := refresh_reverse ⟨[], rfl⟩ steps ρ 1 _ ha
  exact ⟨q, hq, hreverse⟩

/-- In the order of use, the rate of an integral of `x` is refreshed to `2`, with a right side that
is `1` beforehand: `x` and the timestep are `1`, and the auxiliaries `0`. -/
theorem exists_refresh_differs :
    let steps : List (Step Rat) := [.symbol "x", .integral (.result 0), .derivative (.result 1)]
    let s := (synthesize (Script.model steps) Context.new).1
    let ρ : Environment Rat := .ofIds fun i => if i < 2 then some 1 else some 0
    ∃ (a : Quantity Rat) (q : Equation Rat), s.auxiliaries[1]? = some a ∧ s.support[1]? = some q ∧
      q.lhs = .symbol a.symbol ∧ (ρ.run s.support).symbol a.symbol = some 2 ∧
      q.rhs.eval ρ = some 1 :=
  ⟨_, _, rfl, rfl, rfl, by decide +kernel, by decide +kernel⟩

end Kirchhoff
