import Kirchhoff.Proofs.Expr.Renaming

/-!
# Calls of functions

The nodes of an expression are the expression and those of its operands, each node before its
operands and these from left to right (`Expr.nodes`). The functions that a walk meets are those that
the nodes call, in this order, at whatever depth (`Equation.unsupported_eq_nodes`). So an equation
is supported exactly when none of its nodes is a call (`Equation.isSupported_iff`).

To have no calls is a property of the operands, and so one that the canonical operations keep
(`Expr.hereditary_isCallFree`).
-/

namespace Kirchhoff

variable {α : Type}

namespace Expr

/-! ### Nodes -/

mutual

/-- The nodes of an expression: itself, then those of its operands from left to right. -/
def nodes : Expr α → List (Expr α)
  | .number v => [.number v]
  | .symbol s => [.symbol s]
  | .add ts => .add ts :: nodesAll ts
  | .mul fs => .mul fs :: nodesAll fs
  | .pow b x => .pow b x :: (nodes b ++ nodes x)
  | .call f args => .call f args :: nodesAll args

/-- The nodes of one expression after the other. -/
def nodesAll : List (Expr α) → List (Expr α)
  | [] => []
  | e :: es => nodes e ++ nodesAll es

end

/-- The function that a node calls. -/
def function? : Expr α → Option String
  | .call f _ => some f
  | _ => none

variable {es : List (Expr α)}

theorem nodes_number (v : α) : (Expr.number v).nodes = [.number v] := rfl

theorem nodes_symbol (s : Symbol) : (Expr.symbol s : Expr α).nodes = [.symbol s] := rfl

theorem nodesAll_eq : nodesAll es = es.flatMap nodes := by
  induction es with
  | nil => rfl
  | cons e es ih => exact congrArg (e.nodes ++ ·) ih

theorem nodes_add : (Expr.add es).nodes = .add es :: es.flatMap nodes :=
  congrArg (Expr.add es :: ·) nodesAll_eq

theorem nodes_mul : (Expr.mul es).nodes = .mul es :: es.flatMap nodes :=
  congrArg (Expr.mul es :: ·) nodesAll_eq

theorem nodes_pow {b x : Expr α} : (Expr.pow b x).nodes = .pow b x :: (b.nodes ++ x.nodes) := rfl

/-- A call comes before its arguments. -/
theorem nodes_call {f : String} : (Expr.call f es).nodes = .call f es :: es.flatMap nodes :=
  congrArg (Expr.call f es :: ·) nodesAll_eq

/-- A walk meets the calls among the nodes, in their order. -/
theorem functions_eq (e : Expr α) : e.functions = e.nodes.filterMap function? := by
  induction e with
  | number v => rfl
  | symbol s => rfl
  | add ts ih =>
    rw [functions_add, nodes_add, List.filterMap_cons_none rfl, List.filterMap_flatMap]
    exact List.flatMap_congr ih
  | mul fs ih =>
    rw [functions_mul, nodes_mul, List.filterMap_cons_none rfl, List.filterMap_flatMap]
    exact List.flatMap_congr ih
  | pow b x hb hx =>
    rw [functions_pow, nodes_pow, List.filterMap_cons_none rfl, List.filterMap_append, hb, hx]
  | call g args ih =>
    have hcall : function? (Expr.call g args) = some g := rfl
    rw [functions_call, nodes_call, List.filterMap_cons_some hcall, List.filterMap_flatMap,
      List.flatMap_congr ih]

/-! ### Expressions without calls -/

/-- None of the nodes is a call. -/
def IsCallFree (e : Expr α) : Prop := ∀ f args, .call f args ∉ e.nodes

variable {ts fs : List (Expr α)} {b x : Expr α}

theorem isCallFree_number (v : α) : (Expr.number v).IsCallFree := by simp [IsCallFree, nodes_number]

theorem isCallFree_symbol (s : Symbol) : (Expr.symbol s : Expr α).IsCallFree := by
  simp [IsCallFree, nodes_symbol]

/-- No call stands among operands exactly when none stands in any of them. -/
theorem forall_notMem_flatMap_iff :
    (∀ f args, .call f args ∉ es.flatMap nodes) ↔ ∀ e ∈ es, e.IsCallFree := by
  simp only [IsCallFree, List.mem_flatMap, not_exists, not_and]
  exact ⟨fun h e he f args => h f args e he, fun h f args e he => h e he f args⟩

theorem isCallFree_add_iff : (Expr.add ts).IsCallFree ↔ ∀ t ∈ ts, t.IsCallFree := by
  rw [← forall_notMem_flatMap_iff]
  simp only [IsCallFree, nodes_add, List.mem_cons, reduceCtorEq, false_or]

theorem isCallFree_mul_iff : (Expr.mul fs).IsCallFree ↔ ∀ f ∈ fs, f.IsCallFree := by
  rw [← forall_notMem_flatMap_iff]
  simp only [IsCallFree, nodes_mul, List.mem_cons, reduceCtorEq, false_or]

/-- A power has no calls exactly when its base and its exponent have none. -/
theorem isCallFree_pow_iff : (Expr.pow b x).IsCallFree ↔ b.IsCallFree ∧ x.IsCallFree := by
  simp [IsCallFree, nodes_pow, forall_and]

/-- The canonical operations bring no calls in. -/
theorem hereditary_isCallFree [Scalar α] :
    Hereditary (IsCallFree : Expr α → Prop) fun es => ∀ e ∈ es, e.IsCallFree :=
  .of_operands isCallFree_number (fun _ => isCallFree_add_iff) (fun _ => isCallFree_mul_iff)
    fun _ _ => isCallFree_pow_iff

end Expr

/-! ### Equations without calls -/

namespace Equation

variable {q : Equation α}

/-- The nodes of an equation, those of the left side first. -/
def nodes (q : Equation α) : List (Expr α) := q.lhs.nodes ++ q.rhs.nodes

/-- None of the nodes is a call. -/
def IsCallFree (q : Equation α) : Prop := ∀ f args, .call f args ∉ q.nodes

theorem isCallFree_iff : q.IsCallFree ↔ q.lhs.IsCallFree ∧ q.rhs.IsCallFree := by
  simp [IsCallFree, Expr.IsCallFree, nodes, forall_and]

/-- The functions that an equation is rejected for are those that its nodes call. -/
theorem unsupported_eq_nodes (q : Equation α) :
    q.unsupported = q.nodes.filterMap Expr.function? := by
  rw [unsupported_eq, Expr.functions_eq, Expr.functions_eq, nodes, List.filterMap_append]

/-- An equation is supported when none of its nodes is a call. -/
theorem isSupported_iff : q.isSupported = true ↔ q.IsCallFree := by
  rw [isSupported, List.isEmpty_iff, unsupported_eq_nodes, List.filterMap_eq_nil_iff]
  constructor
  · intro h f args hmem
    cases h _ hmem
  · intro h d hd
    cases d with
    | call f args => exact absurd hd (h f args)
    | _ => rfl

end Equation

end Kirchhoff
