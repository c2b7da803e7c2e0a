import Kirchhoff.Proofs.Expr.Canonical
import Kirchhoff.Proofs.Expr.Symbols
import Kirchhoff.Substitution

/-!
# What a substitution does

An expression in which symbols are replaced has the value that the expression has when each of
these symbols stands for the value of its replacement (`Substitution.environment`), although every
node is brought into canonical form again on the way (`eval_transform`).

All symbols are replaced at once. What a replacement brings in is not replaced again, so that every
symbol of the result is either left over or comes from a replacement (`within_transform`).
-/

namespace Kirchhoff

open Kirchhoff.Expr

theorem Expr.transformAll_eq_map {α : Type} (exit : Expr α → Expr α) (es : List (Expr α)) :
    Expr.transformAll exit es = es.map (Expr.transform exit) := by
  induction es with
  | nil => rfl
  | cons e es ih => rw [Expr.transformAll, ih, List.map_cons]

namespace Substitution

variable {α : Type} {s t : Symbol}

/-! ### Replacements -/

theorem lookup_congr {entries : List (Symbol × Expr α)} (h : (s == t) = true) :
    entries.lookup s = entries.lookup t := by
  induction entries with
  | nil => rfl
  | cons p entries ih =>
    have hkey : (s == p.1) = (t == p.1) := by
      rw [Bool.eq_iff_iff, Symbol.beq_iff, Symbol.beq_iff, Symbol.beq_iff.1 h]
    rw [List.lookup_cons, List.lookup_cons, hkey, ih]

/-- Symbols that are the same have the same replacement. -/
theorem get?_congr (σ : Substitution α) (h : (s == t) = true) : σ.get? s = σ.get? t :=
  lookup_congr h

theorem get?_of_isEmpty {σ : Substitution α} (h : σ.isEmpty = true) (s : Symbol) :
    σ.get? s = none := by
  rw [get?, List.isEmpty_iff.1 h]
  rfl

theorem replace_symbol [Scalar α] (σ : Substitution α) (s : Symbol) :
    σ.replace (.symbol s) = (σ.get? s).getD (.symbol s) := rfl

theorem apply_symbol [Scalar α] (σ : Substitution α) (s : Symbol) :
    σ.apply (.symbol s) = (σ.get? s).getD (.symbol s) := by
  unfold apply
  split
  · rename_i hempty
    rw [get?_of_isEmpty hempty, Option.getD_none]
  · rfl

/-- Both sides of an equation are replaced. -/
theorem applyEquation_eq [Scalar α] (σ : Substitution α) (q : Equation α) :
    σ.applyEquation q = ⟨σ.apply q.lhs, σ.apply q.rhs⟩ := by
  unfold applyEquation apply
  split <;> rfl

/-! ### Values -/

/-- The environment that reads each replaced symbol as the value of its replacement. -/
def environment (σ : Substitution Rat) (ρ : Environment Rat) : Environment Rat where
  symbol s :=
    match σ.get? s with
    | some e => e.eval ρ
    | none => ρ.symbol s
  function := ρ.function
  symbol_congr h := by rw [σ.get?_congr h, ρ.symbol_congr h]

theorem environment_of_isEmpty {σ : Substitution Rat} (h : σ.isEmpty = true) (ρ : Environment Rat) :
    (σ.environment ρ).toValuation = ρ.toValuation := by
  simp [environment, get?_of_isEmpty h]

/-- The replacement of a symbol has the value that the symbol stands for. -/
theorem eval_replace_symbol (σ : Substitution Rat) (ρ : Environment Rat) (s : Symbol) :
    (σ.replace (.symbol s)).eval ρ = (σ.environment ρ).symbol s := by
  simp only [replace_symbol, environment]
  cases σ.get? s with
  | none => rfl
  | some e => rfl

theorem eval_transform (σ : Substitution Rat) (ρ : Environment Rat) (e : Expr Rat) {v : Rat}
    (h : e.eval (σ.environment ρ) = some v) : (e.transform σ.replace).eval ρ = some v := by
  induction e generalizing v with
  | number x => exact h
  | symbol s => exact (eval_replace_symbol σ ρ s).trans h
  | add ts ih =>
    obtain ⟨xs, hxs, rfl⟩ := eval_add_iff.1 h
    rw [transform, transformAll_eq_map]
    exact sum_refines _ _ (eval_add_iff.2 ⟨xs, evalAll_map (fun t ht _ => ih t ht) hxs, rfl⟩)
  | mul fs ih =>
    obtain ⟨xs, hxs, rfl⟩ := eval_mul_iff.1 h
    rw [transform, transformAll_eq_map]
    exact product_refines _ _ (eval_mul_iff.2 ⟨xs, evalAll_map (fun f hf _ => ih f hf) hxs, rfl⟩)
  | pow b e ihb ihe =>
    obtain ⟨x, n, hx, hn, hpower, rfl⟩ := eval_pow_iff.1 h
    exact power_refines _ _ _ (eval_pow_iff.2 ⟨x, n, ihb hx, ihe hn, hpower, rfl⟩)
  | call f args ih =>
    obtain ⟨xs, hxs, hv⟩ := eval_call_iff.1 h
    rw [transform, transformAll_eq_map]
    exact eval_call_iff.2 ⟨xs, evalAll_map (fun a ha _ => ih a ha) hxs, hv⟩

/-! ### Symbols -/

/-- When what each symbol becomes has only symbols with a property, so has the result. -/
theorem within_transform [Scalar α] (σ : Substitution α) {P : Symbol → Prop} (e : Expr α)
    (h : e.Within fun s => (σ.replace (.symbol s)).Within P) :
    (e.transform σ.replace).Within P := by
  induction e with
  | number v => exact within_number v
  | symbol s => exact within_symbol_iff.1 h
  | add ts ih =>
    rw [within_add_iff] at h
    rw [transform, transformAll_eq_map]
    exact within_sum (List.forall_mem_map.2 fun t ht => ih t ht (h t ht))
  | mul fs ih =>
    rw [within_mul_iff] at h
    rw [transform, transformAll_eq_map]
    exact within_product (List.forall_mem_map.2 fun f hf => ih f hf (h f hf))
  | pow b e ihb ihe =>
    rw [within_pow_iff] at h
    exact within_power (ihb h.1) (ihe h.2)
  | call f args ih =>
    rw [within_call_iff] at h
    rw [transform, transformAll_eq_map]
    exact within_call_iff.2 (List.forall_mem_map.2 fun a ha => ih a ha (h a ha))

/-- The symbol is left over from the expression, or a replacement of one of its symbols brings it
in. -/
def Yields (σ : Substitution α) (e : Expr α) (s : Symbol) : Prop :=
  (s ∈ e.symbols ∧ σ.get? s = none) ∨ ∃ r ∈ e.symbols, ∃ f, σ.get? r = some f ∧ s ∈ f.symbols

theorem within_apply [Scalar α] (σ : Substitution α) (e : Expr α) :
    (σ.apply e).Within (σ.Yields e) := by
  unfold apply
  split
  · rename_i hempty
    exact fun s hs => .inl ⟨hs, get?_of_isEmpty hempty s⟩
  · refine within_transform σ e fun s hs => ?_
    show (σ.replace (.symbol s)).Within (σ.Yields e)
    rw [replace_symbol]
    cases hget : σ.get? s with
    | none => exact within_symbol_iff.2 (.inl ⟨hs, hget⟩)
    | some f => exact fun r hr => .inr ⟨s, hs, f, hget, hr⟩

/-! ### Substitutions of numbers -/

/-- The substitution puts in numbers. -/
def IsNumeric (σ : Substitution α) : Prop := ∀ p ∈ σ.entries, ∃ v, p.2 = .number v

theorem IsNumeric.get? {σ : Substitution α} (hσ : σ.IsNumeric) {e : Expr α}
    (h : σ.get? s = some e) : ∃ v, e = .number v := by
  rw [Substitution.get?, List.lookup_eq_findSome?] at h
  obtain ⟨p, hp, hpe⟩ := List.exists_of_findSome?_eq_some h
  obtain ⟨-, rfl⟩ : (s == p.1) = true ∧ p.2 = e := by simpa using hpe
  exact hσ p hp

theorem IsNumeric.insert {σ : Substitution α} (hσ : σ.IsNumeric) (s : Symbol) (v : α) :
    (σ.insert s (.number v)).IsNumeric := by
  unfold Substitution.insert
  split
  · refine List.forall_mem_map.2 fun p hp => ?_
    dsimp only
    split
    · exact ⟨v, rfl⟩
    · exact hσ p hp
  · exact List.forall_mem_append.2 ⟨hσ, List.forall_mem_singleton.2 ⟨v, rfl⟩⟩

/-- Assignments of numbers to names put in numbers. -/
theorem isNumeric_ofAssignments {k : Context α} {assignments : List (String × α)}
    {σ : Substitution α} (h : ofAssignments k assignments = .ok σ) : σ.IsNumeric := by
  have hempty : (empty : Substitution α).IsNumeric := List.forall_mem_nil _
  unfold ofAssignments at h
  generalize empty = τ at h hempty
  induction assignments generalizing τ with
  | nil =>
    obtain rfl := Except.ok.inj h
    exact hempty
  | cons a assignments ih =>
    rw [List.foldlM_cons] at h
    cases hlookup : k.lookup a.1 with
    | none => simp [hlookup, bind, Except.bind] at h
    | some s =>
      simp only [hlookup, bind, Except.bind] at h
      exact ih _ h (hempty.insert s a.2)

/-- Numbers that are put in bring no symbol in. -/
theorem IsNumeric.within [Scalar α] {σ : Substitution α} (hσ : σ.IsNumeric) {P : Symbol → Prop}
    {e : Expr α} (h : e.Within P) : (σ.apply e).Within P := by
  refine (within_apply σ e).imp fun s hs => ?_
  obtain ⟨hs, -⟩ | ⟨r, -, f, hf, hs⟩ := hs
  · exact h s hs
  · obtain ⟨v, rfl⟩ := hσ.get? hf
    exact within_number v s hs

/-! ### Both -/

/-- **Substitution is simultaneous.** Where the expression has a value with each replaced symbol
read as the value of its replacement, the result has the same value. Every symbol of the result is
one that is not replaced or comes from a replacement, so that a replaced symbol that occurs in no
replacement is gone. -/
theorem apply_simultaneous (σ : Substitution Rat) (ρ : Environment Rat) (e : Expr Rat) :
    (∀ v, e.eval (σ.environment ρ) = some v → (σ.apply e).eval ρ = some v) ∧
    (∀ s, (σ.get? s).isSome → (∀ r f, σ.get? r = some f → f.mentions s = false) →
      (σ.apply e).mentions s = false) ∧
    ∀ s ∈ (σ.apply e).symbols, (s ∈ e.symbols ∧ σ.get? s = none) ∨
      ∃ r ∈ e.symbols, ∃ f, σ.get? r = some f ∧ s ∈ f.symbols := by
  refine ⟨fun v hv => ?_, fun s hs hnone => ?_, within_apply σ e⟩
  · unfold apply
    split
    · rename_i hempty
      rwa [environment_of_isEmpty hempty] at hv
    · exact eval_transform σ ρ e hv
  · rw [mentions, List.any_eq_false]
    intro t ht hts
    obtain ⟨-, hget⟩ | ⟨r, -, f, hget, hf⟩ := within_apply σ e t ht
    · rw [← σ.get?_congr hts, hget] at hs
      cases hs
    · have hmentions := List.any_eq_false.1 (hnone r f hget) t hf
      exact hmentions hts

/-- Two symbols change places in a quotient: neither replacement is replaced again. -/
theorem apply_simultaneous_swap :
    let x : Symbol := ⟨0, "x"⟩
    let y : Symbol := ⟨1, "y"⟩
    let z : Symbol := ⟨2, "z"⟩
    let σ : Substitution Rat := (empty.insert x (.symbol y)).insert y (.symbol x + .symbol z)
    let e : Expr Rat := .add [.mul [.symbol x, .pow (.symbol y) (.number (-1))], .symbol y]
    let ρ : Environment Rat := .ofIds fun i => some (i + 1)
    e.eval (σ.environment ρ) = some (9 / 2) ∧ (σ.apply e).eval ρ = some (9 / 2) ∧
      (σ.apply e).symbols.map (·.name) = ["y", "x", "z", "x", "z"] := by
  intro x y z σ e ρ
  have h : e.eval (σ.environment ρ) = some (9 / 2) := by decide +kernel
  exact ⟨h, (apply_simultaneous σ ρ e).1 _ h, by decide +kernel⟩

end Substitution

end Kirchhoff
