import Kirchhoff.Proofs.Expr.Closure

/-!
# The symbols of a canonical form

Building a canonical form drops symbols, where terms cancel or a coefficient is zero, but brings
none in: whatever is true of all symbols of the operands (`Within`) is true of all symbols of the
result, since it is a hereditary property (`hereditary_within`).

Expressions are nested lists of operands, so that proofs about all of them go by
`Expr.operandInduction`, which assumes the statement of every operand of a node.
-/

namespace Kirchhoff.Expr

variable {α : Type}

/-! ### Induction -/

/-- Induction on expressions, with a hypothesis for every operand of a node. -/
@[elab_as_elim, induction_eliminator]
theorem operandInduction {motive : Expr α → Prop} (number : ∀ v, motive (.number v))
    (symbol : ∀ s, motive (.symbol s)) (add : ∀ ts, (∀ t ∈ ts, motive t) → motive (.add ts))
    (mul : ∀ fs, (∀ f ∈ fs, motive f) → motive (.mul fs))
    (pow : ∀ b e, motive b → motive e → motive (.pow b e))
    (call : ∀ f args, (∀ a ∈ args, motive a) → motive (.call f args)) (e : Expr α) : motive e :=
  @Expr.rec α motive (fun es => ∀ e ∈ es, motive e) number symbol add mul pow call (by simp)
    (fun _ _ he hes => List.forall_mem_cons.2 ⟨he, hes⟩) e

/-! ### Symbols of operands -/

variable {s : Symbol} {P : Symbol → Prop}

/-- The symbols of operands are those of any of them. -/
theorem mem_symbolsAll {es : List (Expr α)} : s ∈ symbolsAll es ↔ ∃ e ∈ es, s ∈ e.symbols := by
  induction es with
  | nil => simp [symbolsAll]
  | cons e es ih => simp [symbolsAll, ih]

/-- Every symbol of the expression has the property. -/
def Within (P : Symbol → Prop) (e : Expr α) : Prop := ∀ s ∈ e.symbols, P s

/-- A weaker condition on symbols leaves an expression within it. -/
theorem Within.imp {Q : Symbol → Prop} {e : Expr α} (h : e.Within P) (hPQ : ∀ s, P s → Q s) :
    e.Within Q := fun s hs => hPQ s (h s hs)

@[simp] theorem within_number (v : α) : (Expr.number v).Within P := List.forall_mem_nil _

@[simp] theorem within_symbol_iff : (Expr.symbol s : Expr α).Within P ↔ P s :=
  List.forall_mem_singleton

/-- Operands are within a condition together exactly when each is. -/
theorem forall_mem_symbolsAll_iff {es : List (Expr α)} :
    (∀ s ∈ symbolsAll es, P s) ↔ ∀ e ∈ es, e.Within P := by
  simp only [Within, mem_symbolsAll]
  exact ⟨fun h e he s hs => h s ⟨e, he, hs⟩, fun h s ⟨e, he, hs⟩ => h e he s hs⟩

@[simp] theorem within_add_iff {ts : List (Expr α)} :
    (Expr.add ts).Within P ↔ ∀ t ∈ ts, t.Within P :=
  forall_mem_symbolsAll_iff

@[simp] theorem within_mul_iff {fs : List (Expr α)} :
    (Expr.mul fs).Within P ↔ ∀ f ∈ fs, f.Within P :=
  forall_mem_symbolsAll_iff

@[simp] theorem within_pow_iff {b e : Expr α} :
    (Expr.pow b e).Within P ↔ b.Within P ∧ e.Within P :=
  List.forall_mem_append

@[simp] theorem within_call_iff {f : String} {args : List (Expr α)} :
    (Expr.call f args).Within P ↔ ∀ a ∈ args, a.Within P :=
  forall_mem_symbolsAll_iff

/-! ### Unknowns -/

/-- The symbol is none of the given ones. -/
def IsOther (ss : List Symbol) (s : Symbol) : Prop := ∀ u ∈ ss, (u == s) = false

/-- An expression depends on none of the symbols when it consists of others. -/
theorem dependsOn_eq_false_iff {e : Expr α} {ss : List Symbol} :
    e.dependsOn ss = false ↔ e.Within (IsOther ss) := by
  simp [dependsOn, Within, IsOther]

theorem mentions_eq_false {e : Expr α} {ss : List Symbol} (h : e.Within (IsOther ss)) {u : Symbol}
    (hu : u ∈ ss) : e.mentions u = false := by
  rw [mentions, List.any_eq_false]
  intro s hs hsu
  have hus := h s hs u hu
  rw [Symbol.beq_iff.2 (Symbol.beq_iff.1 hsu).symm] at hus
  cases hus

theorem within_isOther_iff {e : Expr α} {ss : List Symbol} :
    e.Within (IsOther ss) ↔ ∀ u ∈ ss, e.mentions u = false := by
  refine ⟨fun h u hu => mentions_eq_false h hu, fun h s hs u hu => ?_⟩
  have hsu : ¬(s == u) = true := List.any_eq_false.1 (h u hu) s hs
  rw [Symbol.beq_iff] at hsu
  rw [Bool.eq_false_iff, ne_eq, Symbol.beq_iff]
  exact Ne.symm hsu

/-! ### Equal trees -/

mutual

/-- Equal trees have the same symbols. -/
theorem symbols_of_beq [BEq α] : ∀ (d e : Expr α), beq d e = true →
    List.Forall₂ (fun s t => (s == t) = true) d.symbols e.symbols
  | .number x, e, h => by
    cases e with
    | number y => exact .nil
    | _ => simp [beq] at h
  | .symbol s, e, h => by
    cases e with
    | symbol t => exact .cons h .nil
    | _ => simp [beq] at h
  | .add xs, e, h => by
    cases e with
    | add ys => exact symbolsAll_of_beqAll xs ys h
    | _ => simp [beq] at h
  | .mul xs, e, h => by
    cases e with
    | mul ys => exact symbolsAll_of_beqAll xs ys h
    | _ => simp [beq] at h
  | .pow b x, e, h => by
    cases e with
    | pow c y =>
      simp only [beq, Bool.and_eq_true] at h
      exact List.rel_append (symbols_of_beq b c h.1) (symbols_of_beq x y h.2)
    | _ => simp [beq] at h
  | .call f xs, e, h => by
    cases e with
    | call g ys =>
      simp only [beq, Bool.and_eq_true] at h
      exact symbolsAll_of_beqAll xs ys h.2
    | _ => simp [beq] at h

theorem symbolsAll_of_beqAll [BEq α] : ∀ (ds es : List (Expr α)), beqAll ds es = true →
    List.Forall₂ (fun s t => (s == t) = true) (symbolsAll ds) (symbolsAll es)
  | [], es, h => by
    cases es with
    | nil => exact .nil
    | cons _ _ => simp [beqAll] at h
  | d :: ds, es, h => by
    cases es with
    | nil => simp [beqAll] at h
    | cons e es =>
      simp only [beqAll, Bool.and_eq_true] at h
      exact List.rel_append (symbols_of_beq d e h.1) (symbolsAll_of_beqAll ds es h.2)

end

/-- Equal trees depend on the same unknowns. -/
theorem dependsOn_of_beq [BEq α] {d e : Expr α} (h : (d == e) = true) (ss : List Symbol) :
    d.dependsOn ss = e.dependsOn ss := by
  have hsymbols := symbols_of_beq d e h
  unfold dependsOn
  generalize d.symbols = ds, e.symbols = es at hsymbols
  induction hsymbols with
  | nil => rfl
  | cons hst _ ih =>
    rw [List.any_cons, List.any_cons, ih]
    congr 2
    funext u
    rw [Bool.eq_iff_iff, Symbol.beq_iff, Symbol.beq_iff, Symbol.beq_iff.1 hst]

/-! ### Canonical forms -/

variable [Scalar α]

/-- To be within a condition is a matter of the operands. -/
theorem hereditary_within (P : Symbol → Prop) :
    Hereditary (Within P : Expr α → Prop) fun fs => ∀ f ∈ fs, f.Within P :=
  .of_operands within_number (fun _ => within_add_iff) (fun _ => within_mul_iff)
    fun _ _ => within_pow_iff

/-- Sums bring in no symbols. -/
theorem within_sum {ts : List (Expr α)} (h : ∀ t ∈ ts, t.Within P) : (sum ts).Within P :=
  (hereditary_within P).sum h

/-- Products bring in no symbols. -/
theorem within_product {fs : List (Expr α)} (h : ∀ f ∈ fs, f.Within P) : (product fs).Within P :=
  (hereditary_within P).product h

/-- Powers bring in no symbols. -/
theorem within_power {b x : Expr α} (hb : b.Within P) (hx : x.Within P) : (power b x).Within P :=
  (hereditary_within P).power hb hx

/-! ### The operations of arithmetic -/

section

variable {a b : Expr α}

theorem within_plus (ha : a.Within P) (hb : b.Within P) : (a + b).Within P :=
  within_sum (by simp [ha, hb])

theorem within_times (ha : a.Within P) (hb : b.Within P) : (a * b).Within P :=
  within_product (by simp [ha, hb])

theorem within_negate (ha : a.Within P) : (-a).Within P := (hereditary_within P).negate ha

theorem within_minus (ha : a.Within P) (hb : b.Within P) : (a - b).Within P :=
  within_sum (by simp [ha, within_negate hb])

theorem within_over (ha : a.Within P) (hb : b.Within P) : (a / b).Within P :=
  within_product (by simp [ha, within_power hb (within_number (-1))])

end

end Kirchhoff.Expr
