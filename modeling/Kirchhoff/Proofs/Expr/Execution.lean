import Kirchhoff.Proofs.Expr.Symbols
import Kirchhoff.Proofs.Expr.Value

/-!
# Equations run as assignments

An equation with a symbol on its left can be run: the symbol takes the value that the right side has
(`Environment.step`). Equations are run one after another, so that each of them reads what those
before it have written.

When no right side mentions a symbol that is written, nothing that is read changes on the way, and
the run does what it would do if all right sides were evaluated beforehand (`run_eq_runAtOnce`). For
one equation it is enough that its right side mentions nothing that was written before it
(`symbol_run`).
-/

namespace Kirchhoff

open Kirchhoff.Expr

variable {α : Type}

/-! ### Writing a symbol -/

namespace Environment

/-- The environment with another value for a symbol, or with none. -/
def assign (ρ : Environment α) (s : Symbol) (v : Option α) : Environment α where
  symbol t := if t == s then v else ρ.symbol t
  function := ρ.function
  symbol_congr {t r} h := by
    have hkey : (t == s) = (r == s) := by
      rw [Bool.eq_iff_iff, Symbol.beq_iff, Symbol.beq_iff, Symbol.beq_iff.1 h]
    rw [hkey, ρ.symbol_congr h]

@[simp] theorem assign_symbol (ρ : Environment α) (s t : Symbol) (v : Option α) :
    (ρ.assign s v).symbol t = if t == s then v else ρ.symbol t := rfl

/-- Writes a value to the left side of an equation, if that is a symbol. -/
def write (ρ : Environment α) (q : Equation α) (v : Option α) : Environment α :=
  match q.lhs with
  | .symbol s => ρ.assign s v
  | _ => ρ

variable [Scalar α]

/-- Runs an equation as an assignment. -/
def step (ρ : Environment α) (q : Equation α) : Environment α := ρ.write q (q.rhs.eval ρ)

/-- Runs equations as assignments, one after another. -/
def run (ρ : Environment α) (qs : List (Equation α)) : Environment α := qs.foldl step ρ

/-- Runs equations as assignments whose right sides are all evaluated beforehand. -/
def runAtOnce (ρ : Environment α) (qs : List (Equation α)) : Environment α :=
  qs.foldl (fun ρ' q => ρ'.write q (q.rhs.eval ρ)) ρ

end Environment

/-! ### Reading what is not written -/

namespace Expr

variable [Scalar α]

theorem evalAll_congr {ρ ρ' : Valuation α} {es : List (Expr α)}
    (h : ∀ e ∈ es, e.eval ρ = e.eval ρ') : evalAll ρ es = evalAll ρ' es := by
  induction es with
  | nil => rfl
  | cons e es ih =>
    obtain ⟨he, hes⟩ := List.forall_mem_cons.1 h
    simp only [evalAll, he, ih hes]

/-- The value of an expression depends on its symbols alone. -/
theorem eval_congr {ρ ρ' : Valuation α} (hfunction : ρ.function = ρ'.function) {e : Expr α}
    (h : e.Within fun s => ρ.symbol s = ρ'.symbol s) : e.eval ρ = e.eval ρ' := by
  induction e with
  | number v => rfl
  | symbol s => exact within_symbol_iff.1 h
  | add ts ih =>
    rw [within_add_iff] at h
    simp only [eval, evalAll_congr fun t ht => ih t ht (h t ht)]
  | mul fs ih =>
    rw [within_mul_iff] at h
    simp only [eval, evalAll_congr fun f hf => ih f hf (h f hf)]
  | pow b e ihb ihe =>
    rw [within_pow_iff] at h
    simp only [eval, ihb h.1, ihe h.2]
  | call f args ih =>
    rw [within_call_iff] at h
    simp only [eval, hfunction, evalAll_congr fun a ha => ih a ha (h a ha)]

end Expr

namespace Environment

variable {ρ ρ' : Environment α} {q : Equation α} {qs : List (Equation α)} {us : List Symbol}

/-- The environments differ at most in the given symbols. -/
structure AgreesBut (us : List Symbol) (ρ ρ' : Environment α) : Prop where
  symbol : ∀ s, IsOther us s → ρ.symbol s = ρ'.symbol s
  function : ρ.function = ρ'.function

theorem AgreesBut.refl (us : List Symbol) (ρ : Environment α) : AgreesBut us ρ ρ :=
  ⟨fun _ _ => rfl, rfl⟩

/-- Only a symbol among the given ones is written. -/
theorem AgreesBut.write (h : AgreesBut us ρ ρ') (hq : ∀ s, q.lhs = .symbol s → s ∈ us)
    (v : Option α) : AgreesBut us ρ (ρ'.write q v) := by
  unfold Environment.write
  split
  · rename_i s hs
    refine ⟨fun t ht => ?_, h.function⟩
    have hts : (t == s) = false := by
      rw [← Bool.not_eq_true, Symbol.beq_iff]
      intro heq
      have hst := ht s (hq s hs)
      rw [Symbol.beq_iff.2 heq.symm] at hst
      cases hst
    simp [hts, h.symbol t ht]
  · exact h

/-- The symbols that equations write. -/
def written (qs : List (Equation α)) : List Symbol := qs.filterMap (·.lhs.symbol?)

theorem mem_written {s : Symbol} : s ∈ written qs ↔ ∃ q ∈ qs, q.lhs = .symbol s := by
  have hsymbol (e : Expr α) : e.symbol? = some s ↔ e = .symbol s := by
    cases e <;> simp [symbol?]
  simp only [written, List.mem_filterMap, hsymbol]

variable [Scalar α]

/-- A run whose right sides mention no symbol that is written is a run all at once. -/
theorem run_eq_runAtOnce (ρ : Environment α) (hlhs : ∀ q ∈ qs, ∀ s, q.lhs = .symbol s → s ∈ us)
    (hrhs : ∀ q ∈ qs, q.rhs.Within (IsOther us)) : ρ.run qs = ρ.runAtOnce qs := by
  -- What was written so far does not change the value of any right side.
  suffices h : ∀ ρ', AgreesBut us ρ ρ' →
      qs.foldl step ρ' = qs.foldl (fun ρ' q => ρ'.write q (q.rhs.eval ρ)) ρ' from
    h ρ (.refl us ρ)
  induction qs with
  | nil => exact fun _ _ => rfl
  | cons q qs ih =>
    intro ρ' h
    obtain ⟨hq, hqs⟩ := List.forall_mem_cons.1 hlhs
    obtain ⟨hr, hrs⟩ := List.forall_mem_cons.1 hrhs
    have hvalue : q.rhs.eval ρ = q.rhs.eval ρ' :=
      eval_congr h.function fun s hs => h.symbol s (hr s hs)
    rw [List.foldl_cons, List.foldl_cons, step, ← hvalue]
    exact ih hqs hrs _ (h.write hq _)

theorem run_append (ρ : Environment α) (qs rs : List (Equation α)) :
    ρ.run (qs ++ rs) = (ρ.run qs).run rs :=
  List.foldl_append

/-- A run changes the symbols that are written, and nothing else. -/
theorem agreesBut_run (ρ : Environment α) (qs : List (Equation α)) :
    AgreesBut (written qs) ρ (ρ.run qs) :=
  List.foldlRecOn (motive := AgreesBut (written qs) ρ) qs _ (.refl _ ρ)
    fun _ h q hq => h.write (fun _ hs => mem_written.2 ⟨q, hq, hs⟩) _

theorem eval_run (ρ : Environment α) {e : Expr α} (h : e.Within (IsOther (written qs))) :
    e.eval (ρ.run qs).toValuation = e.eval ρ.toValuation :=
  (eval_congr (agreesBut_run ρ qs).function fun s hs => (agreesBut_run ρ qs).symbol s (h s hs)).symm

/-- The value that a run leaves in a symbol, when no later equation writes it and the right side of
its own mentions nothing that was written before. -/
theorem symbol_run (ρ : Environment α) (qs rs : List (Equation α)) {s : Symbol}
    (hlhs : q.lhs = .symbol s) (hbefore : q.rhs.Within (IsOther (written qs)))
    (hafter : IsOther (written rs) s) :
    (ρ.run (qs ++ q :: rs)).symbol s = q.rhs.eval ρ.toValuation := by
  have hlater := (agreesBut_run ((ρ.run qs).step q) rs).symbol s hafter
  have hself : ((ρ.run qs).step q).symbol s = q.rhs.eval (ρ.run qs).toValuation := by
    rw [step, write, hlhs]
    simp [Symbol.beq_iff]
  rw [run_append, ← eval_run ρ hbefore, ← hself]
  exact hlater.symm

end Environment

end Kirchhoff
