import Mathlib.Algebra.BigOperators.Group.List.Basic
import Mathlib.Algebra.Field.Rat
import Mathlib.Algebra.GroupWithZero.Basic
import Mathlib.Data.Rat.Cast.Defs
import Mathlib.Tactic.Ring
import Kirchhoff.Equation

/-!
# Values of expressions

Over exact numbers, the value of a sum or product is the sum or product of the values of its
operands, and a power has a value only for an integral exponent, and for a negative one only
where the base is not zero. Equal trees have equal values in every `Environment`.

`Refines ρ d e` compares two expressions by their values: `e` has the value of `d` wherever `d`
has one. This is what a transformation of expressions has to keep.
-/

namespace Kirchhoff

/-- A valuation that reads two symbols alike when they come from one interning. -/
structure Environment (α : Type) extends Valuation α where
  /-- Symbols that are the same have the same value. -/
  symbol_congr {s t : Symbol} : (s == t) = true → symbol s = symbol t

instance {α : Type} : Coe (Environment α) (Valuation α) := ⟨Environment.toValuation⟩

/-- The environment that reads a symbol by its number. -/
def Environment.ofIds {α : Type} (value : Nat → Option α)
    (function : String → List α → Option α := fun _ _ => none) : Environment α where
  symbol s := value s.id
  function := function
  symbol_congr h := by rw [Symbol.beq_iff.1 h]

namespace Expr

section

variable {ρ : Valuation Rat}

/-! ### Lists of expressions -/

/-- A list has values when its head and its tail have. -/
theorem evalAll_cons_iff {e : Expr Rat} {es : List (Expr Rat)} {vs : List Rat} :
    evalAll ρ (e :: es) = some vs ↔
      ∃ x xs, e.eval ρ = some x ∧ evalAll ρ es = some xs ∧ vs = x :: xs := by
  simp only [evalAll, bind, Option.bind_eq_some_iff, pure, Option.some.injEq]
  constructor
  · rintro ⟨x, hx, xs, hxs, rfl⟩
    exact ⟨x, xs, hx, hxs, rfl⟩
  · rintro ⟨x, xs, hx, hxs, rfl⟩
    exact ⟨x, hx, xs, hxs, rfl⟩

/-- Values of two lists put together are those of each. -/
theorem evalAll_append_iff {ds es : List (Expr Rat)} {vs : List Rat} :
    evalAll ρ (ds ++ es) = some vs ↔
      ∃ xs ys, evalAll ρ ds = some xs ∧ evalAll ρ es = some ys ∧ vs = xs ++ ys := by
  induction ds generalizing vs with
  | nil => simp [evalAll]
  | cons d ds ih =>
    simp only [List.cons_append, evalAll_cons_iff, ih]
    constructor
    · rintro ⟨x, _, hx, ⟨xs, ys, hxs, hys, rfl⟩, rfl⟩
      exact ⟨x :: xs, ys, ⟨x, xs, hx, hxs, rfl⟩, hys, rfl⟩
    · rintro ⟨_, ys, ⟨x, xs, hx, hxs, rfl⟩, hys, rfl⟩
      exact ⟨x, xs ++ ys, hx, ⟨xs, ys, hxs, hys, rfl⟩, rfl⟩

theorem evalAll_of_getElem {es : List (Expr Rat)} {x : ℕ → Rat}
    (h : ∀ i e, es[i]? = some e → e.eval ρ = some (x i)) :
    evalAll ρ es = some ((List.range es.length).map x) := by
  induction es generalizing x with
  | nil => rfl
  | cons e es ih =>
    refine evalAll_cons_iff.2 ⟨x 0, _, h 0 e rfl, ih fun i e hi => h (i + 1) e hi, ?_⟩
    rw [List.length_cons, List.range_succ_eq_map, List.map_cons, List.map_map]
    rfl

/-- Expressions that all have values have them together. -/
theorem exists_evalAll {es : List (Expr Rat)} (h : ∀ e ∈ es, ∃ v, e.eval ρ = some v) :
    ∃ vs, evalAll ρ es = some vs := by
  induction es with
  | nil => exact ⟨[], rfl⟩
  | cons e es ih =>
    obtain ⟨⟨x, hx⟩, hes⟩ := List.forall_mem_cons.1 h
    obtain ⟨xs, hxs⟩ := ih hes
    exact ⟨x :: xs, evalAll_cons_iff.2 ⟨x, xs, hx, hxs, rfl⟩⟩

/-- The values stay when every expression is replaced by one that has its value, perhaps under
another valuation. -/
theorem evalAll_map {ρ' : Valuation Rat} {f : Expr Rat → Expr Rat} {es : List (Expr Rat)}
    {vs : List Rat} (h : ∀ e ∈ es, ∀ v, e.eval ρ = some v → (f e).eval ρ' = some v)
    (hv : evalAll ρ es = some vs) : evalAll ρ' (es.map f) = some vs := by
  induction es generalizing vs with
  | nil => exact hv
  | cons e es ih =>
    obtain ⟨x, xs, hx, hxs, rfl⟩ := evalAll_cons_iff.1 hv
    obtain ⟨he, hes⟩ := List.forall_mem_cons.1 h
    exact evalAll_cons_iff.2 ⟨x, xs, he x hx, ih hes hxs, rfl⟩

/-- The values of expressions that are related to given things, each with its own value. -/
theorem evalAll_of_forall₂ {β : Type} {R : β → Expr Rat → Prop} {x : β → Rat} {bs : List β}
    {es : List (Expr Rat)} (h : List.Forall₂ R bs es)
    (hR : ∀ b ∈ bs, ∀ e, R b e → e.eval ρ = some (x b)) : evalAll ρ es = some (bs.map x) := by
  induction h with
  | nil => rfl
  | cons he _ ih =>
    obtain ⟨hb, hbs⟩ := List.forall_mem_cons.1 hR
    exact evalAll_cons_iff.2 ⟨_, _, hb _ he, ih hbs, rfl⟩

/-! ### Sums, products and powers -/

@[simp] theorem eval_number (v : Rat) : (Expr.number v).eval ρ = some v := rfl

@[simp] theorem eval_symbol (s : Symbol) : (Expr.symbol s : Expr Rat).eval ρ = ρ.symbol s := rfl

/-- The value of a sum is the sum of the values of its terms. -/
theorem eval_add_iff {ts : List (Expr Rat)} {v : Rat} :
    (Expr.add ts).eval ρ = some v ↔ ∃ xs, evalAll ρ ts = some xs ∧ xs.sum = v := by
  simp only [eval]
  cases evalAll ρ ts with
  | none => simp
  | some xs => simp [List.sum_eq_foldl]

/-- The value of a product is the product of the values of its factors. -/
theorem eval_mul_iff {fs : List (Expr Rat)} {v : Rat} :
    (Expr.mul fs).eval ρ = some v ↔ ∃ xs, evalAll ρ fs = some xs ∧ xs.prod = v := by
  simp only [eval]
  cases evalAll ρ fs with
  | none => simp
  | some xs => simp [List.prod_eq_foldl]

@[simp] theorem eval_add_nil : (Expr.add []).eval ρ = some 0 := eval_add_iff.2 ⟨[], rfl, rfl⟩

@[simp] theorem eval_mul_nil : (Expr.mul []).eval ρ = some 1 := eval_mul_iff.2 ⟨[], rfl, rfl⟩

theorem eval_add_cons_iff {t : Expr Rat} {ts : List (Expr Rat)} {v : Rat} :
    (Expr.add (t :: ts)).eval ρ = some v ↔
      ∃ x y, t.eval ρ = some x ∧ (Expr.add ts).eval ρ = some y ∧ x + y = v := by
  simp only [eval_add_iff, evalAll_cons_iff]
  constructor
  · rintro ⟨_, ⟨x, xs, hx, hxs, rfl⟩, rfl⟩
    exact ⟨x, xs.sum, hx, ⟨xs, hxs, rfl⟩, rfl⟩
  · rintro ⟨x, _, hx, ⟨xs, hxs, rfl⟩, rfl⟩
    exact ⟨x :: xs, ⟨x, xs, hx, hxs, rfl⟩, rfl⟩

theorem eval_mul_cons_iff {f : Expr Rat} {fs : List (Expr Rat)} {v : Rat} :
    (Expr.mul (f :: fs)).eval ρ = some v ↔
      ∃ x y, f.eval ρ = some x ∧ (Expr.mul fs).eval ρ = some y ∧ x * y = v := by
  simp only [eval_mul_iff, evalAll_cons_iff]
  constructor
  · rintro ⟨_, ⟨x, xs, hx, hxs, rfl⟩, rfl⟩
    exact ⟨x, xs.prod, hx, ⟨xs, hxs, rfl⟩, rfl⟩
  · rintro ⟨x, _, hx, ⟨xs, hxs, rfl⟩, rfl⟩
    exact ⟨x :: xs, ⟨x, xs, hx, hxs, rfl⟩, rfl⟩

theorem eval_add_append_iff {ts us : List (Expr Rat)} {v : Rat} :
    (Expr.add (ts ++ us)).eval ρ = some v ↔
      ∃ x y, (Expr.add ts).eval ρ = some x ∧ (Expr.add us).eval ρ = some y ∧ x + y = v := by
  simp only [eval_add_iff, evalAll_append_iff]
  constructor
  · rintro ⟨_, ⟨xs, ys, hxs, hys, rfl⟩, rfl⟩
    exact ⟨xs.sum, ys.sum, ⟨xs, hxs, rfl⟩, ⟨ys, hys, rfl⟩, List.sum_append.symm⟩
  · rintro ⟨_, _, ⟨xs, hxs, rfl⟩, ⟨ys, hys, rfl⟩, rfl⟩
    exact ⟨xs ++ ys, ⟨xs, ys, hxs, hys, rfl⟩, List.sum_append⟩

theorem eval_mul_append_iff {fs gs : List (Expr Rat)} {v : Rat} :
    (Expr.mul (fs ++ gs)).eval ρ = some v ↔
      ∃ x y, (Expr.mul fs).eval ρ = some x ∧ (Expr.mul gs).eval ρ = some y ∧ x * y = v := by
  simp only [eval_mul_iff, evalAll_append_iff]
  constructor
  · rintro ⟨_, ⟨xs, ys, hxs, hys, rfl⟩, rfl⟩
    exact ⟨xs.prod, ys.prod, ⟨xs, hxs, rfl⟩, ⟨ys, hys, rfl⟩, List.prod_append.symm⟩
  · rintro ⟨_, _, ⟨xs, hxs, rfl⟩, ⟨ys, hys, rfl⟩, rfl⟩
    exact ⟨xs ++ ys, ⟨xs, ys, hxs, hys, rfl⟩, List.prod_append⟩

/-- An integral power of `x` has a value. -/
def HasPower (x : Rat) (n : ℤ) : Prop := x ≠ 0 ∨ 0 ≤ n

/-- A power has a value for an integral exponent only, and for a negative one if the base is not
zero. -/
theorem integralPower?_eq_some_iff {b e v : Rat} :
    Scalar.integralPower? b e = some v ↔ ∃ n : ℤ, e = n ∧ HasPower b n ∧ b ^ n = v := by
  unfold Scalar.integralPower? HasPower
  constructor
  · intro h
    split at h
    · rename_i hc
      obtain ⟨hd, hn⟩ := hc
      exact ⟨e.num, (Rat.coe_int_num_of_den_eq_one hd).symm, hn, by simpa using h⟩
    · cases h
  · rintro ⟨n, rfl, hn, rfl⟩
    simp [hn]

/-- The value of a power is that of its base raised to an integral value. -/
theorem eval_pow_iff {b e : Expr Rat} {v : Rat} :
    (Expr.pow b e).eval ρ = some v ↔
      ∃ (x : Rat) (n : ℤ), b.eval ρ = some x ∧ e.eval ρ = some (n : Rat) ∧ HasPower x n ∧
        x ^ n = v := by
  have hp (x y : Rat) : Scalar.power? x y = Scalar.integralPower? x y := rfl
  simp only [eval, bind, Option.bind_eq_some_iff, hp, integralPower?_eq_some_iff]
  constructor
  · rintro ⟨x, hx, _, he, n, rfl, hn, rfl⟩
    exact ⟨x, n, hx, he, hn, rfl⟩
  · rintro ⟨x, n, hx, he, hn, rfl⟩
    exact ⟨x, hx, n, he, n, rfl, hn, rfl⟩

/-- A call has the value that the function gives for those of its arguments. -/
theorem eval_call_iff {f : String} {args : List (Expr Rat)} {v : Rat} :
    (Expr.call f args).eval ρ = some v ↔
      ∃ xs, evalAll ρ args = some xs ∧ ρ.function f xs = some v := by
  simp only [eval, bind, Option.bind_eq_some_iff]

/-! ### Refinement -/

/-- `e` has the value of `d`, if `d` has one. -/
def Refines (ρ : Valuation Rat) (d e : Expr Rat) : Prop :=
  ∀ v, d.eval ρ = some v → e.eval ρ = some v

/-- An expression refines itself. -/
theorem Refines.refl (e : Expr Rat) : Refines ρ e e := fun _ h => h

/-- The operands of a list may be refined one by one. -/
theorem evalAll_refines {ds es : List (Expr Rat)} (h : List.Forall₂ (Refines ρ) ds es)
    {vs : List Rat} (hv : evalAll ρ ds = some vs) : evalAll ρ es = some vs := by
  induction h generalizing vs with
  | nil => exact hv
  | cons hd _ ih =>
    obtain ⟨x, xs, hx, hxs, rfl⟩ := evalAll_cons_iff.1 hv
    exact evalAll_cons_iff.2 ⟨x, xs, hd x hx, ih hxs, rfl⟩

theorem Refines.add {ts us : List (Expr Rat)} (h : List.Forall₂ (Refines ρ) ts us) :
    Refines ρ (.add ts) (.add us) := fun v hv => by
  obtain ⟨xs, hxs, rfl⟩ := eval_add_iff.1 hv
  exact eval_add_iff.2 ⟨xs, evalAll_refines h hxs, rfl⟩

theorem Refines.mul {fs gs : List (Expr Rat)} (h : List.Forall₂ (Refines ρ) fs gs) :
    Refines ρ (.mul fs) (.mul gs) := fun v hv => by
  obtain ⟨xs, hxs, rfl⟩ := eval_mul_iff.1 hv
  exact eval_mul_iff.2 ⟨xs, evalAll_refines h hxs, rfl⟩

end

/-! ### Equal trees -/

mutual

/-- Equal trees have equal values. -/
theorem eval_eq_of_beq (ρ : Environment Rat) :
    ∀ (d e : Expr Rat), beq d e = true → d.eval ρ = e.eval ρ
  | .number x, e, h => by
    cases e <;> simp_all [beq]
  | .symbol s, e, h => by
    cases e with
    | symbol t => exact ρ.symbol_congr h
    | _ => simp [beq] at h
  | .add xs, e, h => by
    cases e with
    | add ys => simp only [eval, evalAll_eq_of_beqAll ρ xs ys h]
    | _ => simp [beq] at h
  | .mul xs, e, h => by
    cases e with
    | mul ys => simp only [eval, evalAll_eq_of_beqAll ρ xs ys h]
    | _ => simp [beq] at h
  | .pow b x, e, h => by
    cases e with
    | pow c y =>
      simp only [beq, Bool.and_eq_true] at h
      simp only [eval, eval_eq_of_beq ρ b c h.1, eval_eq_of_beq ρ x y h.2]
    | _ => simp [beq] at h
  | .call f xs, e, h => by
    cases e with
    | call g ys =>
      simp only [beq, Bool.and_eq_true, beq_iff_eq] at h
      simp only [eval, h.1, evalAll_eq_of_beqAll ρ xs ys h.2]
    | _ => simp [beq] at h

theorem evalAll_eq_of_beqAll (ρ : Environment Rat) :
    ∀ (ds es : List (Expr Rat)), beqAll ds es = true → evalAll ρ ds = evalAll ρ es
  | [], es, h => by
    cases es with
    | nil => rfl
    | cons _ _ => simp [beqAll] at h
  | d :: ds, es, h => by
    cases es with
    | nil => simp [beqAll] at h
    | cons e es =>
      simp only [beqAll, Bool.and_eq_true] at h
      simp only [evalAll, eval_eq_of_beq ρ d e h.1, evalAll_eq_of_beqAll ρ ds es h.2]

end

end Expr

/-! ### Equations -/

theorem Equation.holds_iff {ρ : Valuation Rat} {q : Equation Rat} :
    q.Holds ρ ↔ (q.lhs.eval ρ).isSome ∧ q.lhs.eval ρ = q.rhs.eval ρ := by
  constructor
  · rintro ⟨v, hl, hr⟩
    exact ⟨hl ▸ rfl, hl.trans hr.symm⟩
  · rintro ⟨hsome, heq⟩
    obtain ⟨v, hv⟩ := Option.isSome_iff_exists.1 hsome
    exact ⟨v, hv, heq ▸ hv⟩

instance (ρ : Valuation Rat) (q : Equation Rat) : Decidable (q.Holds ρ) :=
  decidable_of_iff _ Equation.holds_iff.symm

end Kirchhoff
