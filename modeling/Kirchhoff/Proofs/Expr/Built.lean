import Kirchhoff.Proofs.Expr.Symbols
import Kirchhoff.Walk

/-!
# Expressions built by the operations

Most expressions are not written down as trees but built from numbers and symbols by the canonical
operations (`IsBuilt`), perhaps with a condition on the powers that are taken (`IsBuiltWith`). What
the operations keep (`Hereditary`), all expressions have that are built.

What stands in an expression is what a walk meets: each node, and the functions that are called.
-/

namespace Kirchhoff.Expr

variable {α : Type} [Scalar α]

/-! ### Built expressions -/

/-- The expression is built from numbers and symbols by the operations, where powers are taken only
of bases and exponents that are related. -/
inductive IsBuiltWith (R : Expr α → Expr α → Prop) : Expr α → Prop
  | number (v : α) : IsBuiltWith R (.number v)
  | symbol (s : Symbol) : IsBuiltWith R (.symbol s)
  | plus {a b : Expr α} (ha : IsBuiltWith R a) (hb : IsBuiltWith R b) : IsBuiltWith R (a + b)
  | minus {a b : Expr α} (ha : IsBuiltWith R a) (hb : IsBuiltWith R b) : IsBuiltWith R (a - b)
  | times {a b : Expr α} (ha : IsBuiltWith R a) (hb : IsBuiltWith R b) : IsBuiltWith R (a * b)
  | divide {a b : Expr α} (ha : IsBuiltWith R a) (hb : IsBuiltWith R b) (h : R b (.number (-1))) :
    IsBuiltWith R (a / b)
  | negate {a : Expr α} (ha : IsBuiltWith R a) : IsBuiltWith R (-a)
  | power {b x : Expr α} (hb : IsBuiltWith R b) (hx : IsBuiltWith R x) (h : R b x) :
    IsBuiltWith R (b ^ x)
  | call (f : String) {args : List (Expr α)} (h : ∀ a ∈ args, IsBuiltWith R a) :
    IsBuiltWith R (.call f args)
  | sum {ts : List (Expr α)} (h : ∀ t ∈ ts, IsBuiltWith R t) : IsBuiltWith R (sum ts)
  | product {fs : List (Expr α)} (h : ∀ f ∈ fs, IsBuiltWith R f) : IsBuiltWith R (product fs)

/-- The expression is built from numbers and symbols by the operations. -/
abbrev IsBuilt (e : Expr α) : Prop := IsBuiltWith (fun _ _ => True) e

variable {e : Expr α}

/-- A weaker condition on powers leaves an expression built. -/
theorem IsBuiltWith.mono {R R' : Expr α → Expr α → Prop} (h : IsBuiltWith R e)
    (hR : ∀ b x, R b x → R' b x) : IsBuiltWith R' e := by
  induction h with
  | number v => exact .number v
  | symbol s => exact .symbol s
  | plus _ _ ha hb => exact .plus ha hb
  | minus _ _ ha hb => exact .minus ha hb
  | times _ _ ha hb => exact .times ha hb
  | divide _ _ h ha hb => exact .divide ha hb (hR _ _ h)
  | negate _ ha => exact .negate ha
  | power _ _ h hb hx => exact .power hb hx (hR _ _ h)
  | call f _ ih => exact .call f ih
  | sum _ ih => exact .sum ih
  | product _ ih => exact .product ih

/-- What the operations keep, and symbols and calls have, all built expressions have. -/
theorem IsBuiltWith.of_hereditary {R : Expr α → Expr α → Prop} {Q : Expr α → Prop}
    {L : List (Expr α) → Prop} (h : IsBuiltWith R e) (hQ : Hereditary Q L)
    (hsymbol : ∀ s, Q (.symbol s)) (hcall : ∀ f args, (∀ a ∈ args, Q a) → Q (.call f args)) :
    Q e := by
  induction h with
  | number v => exact hQ.number v
  | symbol s => exact hsymbol s
  | plus _ _ ha hb => exact hQ.sum (by simp [ha, hb])
  | minus _ _ ha hb =>
    exact hQ.sum (by simpa using ⟨ha, hQ.product (by simpa using ⟨hQ.number _, hb⟩)⟩)
  | times _ _ ha hb => exact hQ.product (by simp [ha, hb])
  | divide _ _ _ ha hb =>
    exact hQ.product (by simpa using ⟨ha, hQ.power hb (hQ.number _)⟩)
  | negate _ ha => exact hQ.product (by simpa using ⟨hQ.number _, ha⟩)
  | power _ _ _ hb hx => exact hQ.power hb hx
  | call f _ ih => exact hcall f _ ih
  | sum _ ih => exact hQ.sum ih
  | product _ ih => exact hQ.product ih

/-! ### What stands in an expression -/

/-- The functions called in an expression, in the order of a walk. -/
def functions (e : Expr α) : List String := e.walk.filterMap Event.function?

section

omit [Scalar α]

variable {ev : Event α} {f : String} {b x : Expr α} {es : List (Expr α)}

/-! A walk enters a node, goes through its operands, and leaves the node. -/

theorem walk_number (v : α) :
    (Expr.number v).walk = [.enterExpr (.number v), .exitExpr (.number v)] := rfl

/-- A symbol is met between entering and leaving its node. -/
theorem walk_symbol (s : Symbol) : (Expr.symbol s : Expr α).walk =
    [.enterExpr (.symbol s), .meetSymbol s, .exitExpr (.symbol s)] := rfl

theorem walk_add :
    (Expr.add es).walk = .enterExpr (.add es) :: walkAll es ++ [.exitExpr (.add es)] := rfl

theorem walk_mul :
    (Expr.mul es).walk = .enterExpr (.mul es) :: walkAll es ++ [.exitExpr (.mul es)] := rfl

/-- The base of a power comes before the exponent. -/
theorem walk_pow : (Expr.pow b x).walk =
    .enterExpr (.pow b x) :: (b.walk ++ x.walk) ++ [.exitExpr (.pow b x)] := rfl

/-- A call is met before its arguments. -/
theorem walk_call : (Expr.call f es).walk =
    .enterExpr (.call f es) :: .meetCall f es :: walkAll es ++ [.exitExpr (.call f es)] := rfl

/-- Operands are gone through one after another. -/
theorem walkAll_eq : walkAll es = es.flatMap walk := by
  induction es with
  | nil => rfl
  | cons e es ih => exact congrArg (e.walk ++ ·) ih

theorem mem_walkAll : ev ∈ walkAll es ↔ ∃ e ∈ es, ev ∈ e.walk := by
  rw [walkAll_eq, List.mem_flatMap]

/-! What holds of the nodes of an expression holds of the expression and of the nodes of its
operands. -/

variable {P : Expr α → Prop}

/-- The nodes of a list of operands are those of its members. -/
theorem forall_node_all : (∀ d, .enterExpr d ∈ walkAll es → P d) ↔
    ∀ e ∈ es, ∀ d, .enterExpr d ∈ e.walk → P d := by
  simp only [mem_walkAll, forall_exists_index, and_imp]
  exact ⟨fun h e he d hd => h d e he hd, fun h d e he hd => h e he d hd⟩

theorem forall_node_number {v : α} :
    (∀ d, .enterExpr d ∈ (Expr.number v).walk → P d) ↔ P (.number v) := by
  simp [walk_number]

theorem forall_node_symbol {s : Symbol} :
    (∀ d, .enterExpr d ∈ (Expr.symbol s : Expr α).walk → P d) ↔ P (.symbol s) := by
  simp [walk_symbol]

theorem forall_node_add : (∀ d, .enterExpr d ∈ (Expr.add es).walk → P d) ↔
    P (.add es) ∧ ∀ e ∈ es, ∀ d, .enterExpr d ∈ e.walk → P d := by
  simp [walk_add, or_imp, forall_and, forall_node_all]

theorem forall_node_mul : (∀ d, .enterExpr d ∈ (Expr.mul es).walk → P d) ↔
    P (.mul es) ∧ ∀ e ∈ es, ∀ d, .enterExpr d ∈ e.walk → P d := by
  simp [walk_mul, or_imp, forall_and, forall_node_all]

/-- The nodes of a power are itself and those of its base and its exponent. -/
theorem forall_node_pow : (∀ d, .enterExpr d ∈ (Expr.pow b x).walk → P d) ↔
    P (.pow b x) ∧ (∀ d, .enterExpr d ∈ b.walk → P d) ∧ ∀ d, .enterExpr d ∈ x.walk → P d := by
  simp [walk_pow, or_imp, forall_and]

theorem forall_node_call : (∀ d, .enterExpr d ∈ (Expr.call f es).walk → P d) ↔
    P (.call f es) ∧ ∀ e ∈ es, ∀ d, .enterExpr d ∈ e.walk → P d := by
  simp [walk_call, or_imp, forall_and, forall_node_all]

/-! An expression calls the functions that its operands call, and a call one more before them. -/

/-- Operands call the functions that each of them calls, in their order. -/
theorem filterMap_walkAll : (walkAll es).filterMap Event.function? = es.flatMap functions := by
  rw [walkAll_eq, List.filterMap_flatMap]
  rfl

theorem functions_add : (Expr.add es).functions = es.flatMap functions := by
  simp [functions, walk_add, ← filterMap_walkAll, List.filterMap_cons, Event.function?]

theorem functions_mul : (Expr.mul es).functions = es.flatMap functions := by
  simp [functions, walk_mul, ← filterMap_walkAll, List.filterMap_cons, Event.function?]

theorem functions_pow : (Expr.pow b x).functions = b.functions ++ x.functions := by
  simp [functions, walk_pow, List.filterMap_cons, Event.function?]

/-- A call names its function before those of its arguments. -/
theorem functions_call : (Expr.call f es).functions = f :: es.flatMap functions := by
  simp [functions, walk_call, ← filterMap_walkAll, List.filterMap_cons, Event.function?]

end

end Kirchhoff.Expr
