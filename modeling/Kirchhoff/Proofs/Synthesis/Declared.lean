import Kirchhoff.Proofs.Network.Flows
import Kirchhoff.Proofs.Synthesis.History

/-!
# What a session declares

A session declares the edges that are touched, the parameters that have no number, the auxiliaries
of its operators, and the timestep if that is a symbol (`Progress.Declares`). Whatever it gives out
and writes down mentions only these and the parameters that have a number
(`Progress.IsCovered.step`, `Progress.IsCovered.run`), and the laws speak of the edges
(`Topology.IsAnalysis.within`).

A parameter is listed once, as it was declared first (`Progress.IsListed.lookup_registry_run`). If
that was with a number (`Script.IsConstant`), its symbol is not declared, although a step may leave
it: one that takes the symbol of the parameter, or one that declares the name again without a number
(`Script.Exposes`).
-/

namespace Kirchhoff

open Kirchhoff.Expr

variable {α : Type}

/-! ### Equations and their symbols -/

/-- Every symbol in the equation has the property. -/
def Equation.Within (P : Symbol → Prop) (q : Equation α) : Prop :=
  q.lhs.Within P ∧ q.rhs.Within P

theorem Equation.Within.imp {P Q : Symbol → Prop} {q : Equation α} (h : q.Within P)
    (hPQ : ∀ s, P s → Q s) : q.Within Q := ⟨h.1.imp hPQ, h.2.imp hPQ⟩

/-! ### The laws of a network -/

section

variable [Scalar α] {P : Symbol → Prop}

/-- What the canonical operations keep, the laws of a network have, if the potentials and flows of
its edges have it. -/
theorem Topology.IsAnalysis.forall_sides {t : Topology} {k : Context α} {a : Analysis α}
    {Q : Expr α → Prop} {L : List (Expr α) → Prop} (h : t.IsAnalysis k a) (hQ : Hereditary Q L)
    (hpotential : ∀ e ∈ t.edges, ∀ s, k.lookup (e.name ++ ".pot") = some s → Q (.symbol s))
    (hflow : ∀ e ∈ t.edges, ∀ s, k.lookup (e.name ++ ".flw") = some s → Q (.symbol s)) :
    ∀ q ∈ a.potentialLaws ++ a.flowLaws, Q q.lhs ∧ Q q.rhs := by
  have hsymbol {e : Edge} (he : e ∈ t.edges) {x : Expr α} (hx : k.IsPotential e x) : Q x := by
    obtain ⟨s, hs, rfl⟩ := hx
    exact hpotential e he s hs
  intro q hq
  obtain hq | hq := List.mem_append.1 hq
  · obtain ⟨l, hl, ps, ns, hps, hns, rfl⟩ | ⟨p, hp, i, hi, hlhs, hrhs⟩ := h.mem_potentialLaws hq
    · have hlt := lt_of_mem_foundLoops hl
      refine ⟨hQ.sum (List.forall_mem_append.2 ⟨?_, List.forall_mem_map.2 ?_⟩), hQ.number 0⟩
      · intro x hx
        obtain ⟨i, hi, hpot⟩ := exists_left_of_forall₂ hps hx
        exact hsymbol (edge_mem (hlt i (List.mem_append_left _ hi))) hpot
      · intro x hx
        obtain ⟨i, hi, hpot⟩ := exists_left_of_forall₂ hns hx
        exact hQ.negate (hsymbol (edge_mem (hlt i (List.mem_append_right _ hi))) hpot)
    · obtain ⟨hr, ho⟩ := mem_edges_of_mem_others hp hi
      exact ⟨hsymbol hr hlhs, hsymbol ho hrhs⟩
  · obtain ⟨terms, hterms, xs, hxs, rfl⟩ := exists_left_of_forall₂ h.flowLaws hq
    obtain ⟨n, -, rfl⟩ := List.mem_map.1 (List.mem_filter.1 hterms).1
    refine ⟨hQ.sum fun x hx => ?_, hQ.number 0⟩
    obtain ⟨term, hterm, f, ⟨s, hs, rfl⟩, rfl⟩ := exists_left_of_forall₂ hxs hx
    have hlt := (Graph.mem_balance.1 hterm).1
    rw [edgeCount_graph] at hlt
    have hf : Q (.symbol s) := hflow _ (edge_mem hlt) s hs
    split
    · exact hQ.negate hf
    · exact hf

/-- The laws of a network speak of the potentials and flows of its edges. -/
theorem Topology.IsAnalysis.within {t : Topology} {k : Context α} {a : Analysis α}
    (h : t.IsAnalysis k a)
    (hpotential : ∀ e ∈ t.edges, ∀ s, k.lookup (e.name ++ ".pot") = some s → P s)
    (hflow : ∀ e ∈ t.edges, ∀ s, k.lookup (e.name ++ ".flw") = some s → P s) :
    ∀ q ∈ a.potentialLaws ++ a.flowLaws, q.Within P :=
  h.forall_sides (hereditary_within P)
    (fun e he s hs => within_symbol_iff.2 (hpotential e he s hs))
    fun e he s hs => within_symbol_iff.2 (hflow e he s hs)

end

namespace Script

/-- The parameters that the steps declare, also those that were declared before. -/
def declarations (steps : List (Step α)) : List (String × Option α) :=
  steps.filterMap Step.declaration?

/-- The name is declared as a parameter, the first time with a number. -/
def IsConstant (steps : List (Step α)) (name : String) : Prop :=
  ∃ v, (declarations steps).lookup name = some (some v)

/-- A step leaves the symbol of the parameter. -/
def Exposes (steps : List (Step α)) (name : String) : Prop := ∃ st ∈ steps, st.exposed? = some name

theorem declarations_cons (st : Step α) (steps : List (Step α)) :
    declarations (st :: steps) = st.declaration?.toList ++ declarations steps := by
  rw [declarations, List.filterMap_cons]
  cases st.declaration? <;> rfl

end Script

/-! ### Sessions only add -/

namespace Progress

variable {p q : Progress α}

/-- The later session has what the earlier one has, and perhaps more. -/
structure Extends (p q : Progress α) : Prop where
  context : p.context.Grows q.context
  edges : p.topology.edges ⊆ q.topology.edges
  parameters : p.parameters ⊆ q.parameters
  auxiliaries : p.discretization.auxiliaries ⊆ q.discretization.auxiliaries

theorem Extends.trans {r : Progress α} (h : p.Extends q) (h' : q.Extends r) : p.Extends r where
  context := h.context.trans h'.context
  edges := List.Subset.trans h.edges h'.edges
  parameters := List.Subset.trans h.parameters h'.parameters
  auxiliaries := List.Subset.trans h.auxiliaries h'.auxiliaries

theorem extends_addEdge (p : Progress α) (e : Edge) : p.Extends (p.addEdge e) where
  context := .refl
  edges := p.topology.edges_subset_addEdge e
  parameters := List.Subset.refl _
  auxiliaries := List.Subset.refl _

theorem extends_intern (p : Progress α) (name : String) : p.Extends (p.intern name) :=
  ⟨Context.isGrowing_symbol name p.context, List.Subset.refl _, List.Subset.refl _,
    List.Subset.refl _⟩

theorem extends_keep (p : Progress α) (e : Expr α) : p.Extends (p.keep e) :=
  ⟨.refl, List.Subset.refl _, List.Subset.refl _, List.Subset.refl _⟩

/-- A declaration adds a parameter at most. -/
theorem extends_register (p : Progress α) (name : String) (v : Option α) :
    p.Extends (p.register name v) where
  context := Context.isGrowing_symbol name p.context
  edges := List.Subset.refl _
  parameters := by
    simp only [Progress.register]
    split
    · exact List.Subset.refl _
    · exact List.subset_append_left _ _
  auxiliaries := List.Subset.refl _

theorem extends_relate (p : Progress α) (r : Equation α) : p.Extends (p.relate r) :=
  ⟨.refl, List.Subset.refl _, List.Subset.refl _, List.Subset.refl _⟩

theorem extends_list (p : Progress α) (e : Expr α) : p.Extends (p.list e) :=
  ⟨.refl, List.Subset.refl _, List.Subset.refl _, List.Subset.refl _⟩

variable [Scalar α]

theorem extends_operate (p : Progress α) (stem : String)
    (result refreshed : Expr α → Expr α → Expr α) :
    p.Extends (p.operate stem result refreshed) :=
  ⟨Context.isGrowing_freshSymbol stem p.context, List.Subset.refl _, List.Subset.refl _,
    List.subset_append_left _ _⟩

/-- Every step only adds. -/
theorem extends_step (p : Progress α) (st : Step α) : p.Extends (p.step st) := by
  rw [step_eq_change]
  cases st with
  | potential e | flow e => exact (p.extends_addEdge e).trans (extends_intern _ _)
  | symbol name => exact p.extends_intern name
  | parameter name => exact (p.extends_register name none).trans (extends_keep _ _)
  | constant name v | constantSymbol name v =>
    exact (p.extends_register name (some v)).trans (extends_keep _ _)
  | timestep => exact p.extends_keep _
  | define o => exact p.extends_keep _
  | integral o | derivative o =>
    rw [change]
    exact p.extends_operate _ _ _
  | relate lhs rhs => exact p.extends_relate _
  | unknown o => exact p.extends_list _

/-! ### Parameters -/

/-- The parameters have the symbols of their names, and different names. -/
structure IsListed (p : Progress α) : Prop where
  lookup : ∀ a ∈ p.parameters, p.context.lookup a.name = some a.symbol
  nodup : (p.parameters.map (·.name)).Nodup

section

omit [Scalar α]

theorem isListed_start (k : Context α) : IsListed { toSession := { context := k } } :=
  ⟨List.forall_mem_nil _, List.nodup_nil⟩

theorem name_quantity (p : Progress α) (name : String) (v : Option α) :
    (p.quantity name v).name = name :=
  (Context.lookup_spec (Context.lookup_symbol name p.context)).2

/-- A parameter is declared again if and only if it has the name. -/
theorem IsListed.beq_quantity_iff (h : p.IsListed) (hp : p.IsSound) {name : String} {v : Option α}
    {a : Quantity α} (ha : a ∈ p.parameters) :
    (a == p.quantity name v) = true ↔ a.name = name := by
  have hgrows := Context.isGrowing_symbol name p.context
  have hlookup := hgrows.lookup (h.lookup a ha)
  have hquantity := Context.lookup_symbol name p.context
  constructor
  · intro hid
    have hsame := (hgrows.isSound hp.context).isNumbered.eq_of_id_eq
      (Context.lookup_spec hlookup).1 (Context.lookup_spec hquantity).1 (Symbol.beq_iff.1 hid)
    exact (congrArg Symbol.name hsame).trans (name_quantity p name v)
  · intro hname
    rw [hname] at hlookup
    exact Symbol.beq_iff.2 (congrArg Symbol.id (Option.some.inj (hlookup.symm.trans hquantity)))

theorem IsListed.of_extends (h : p.IsListed) (hext : p.Extends q)
    (hparameters : q.parameters = p.parameters) : q.IsListed where
  lookup a ha := by
    rw [hparameters] at ha
    exact hext.context.lookup (h.lookup a ha)
  nodup := hparameters ▸ h.nodup

/-- A parameter that is listed already is not listed again. -/
theorem IsListed.parameters_register (h : p.IsListed) (hp : p.IsSound) (name : String)
    (v : Option α) :
    ((∃ a ∈ p.parameters, a.name = name) ∧ (p.register name v).parameters = p.parameters) ∨
      ((∀ a ∈ p.parameters, a.name ≠ name) ∧
        (p.register name v).parameters = p.parameters ++ [p.quantity name v]) := by
  by_cases hany : p.parameters.any (· == p.quantity name v) = true
  · obtain ⟨a, ha, hbeq⟩ := List.any_eq_true.1 hany
    exact .inl ⟨⟨a, ha, (h.beq_quantity_iff hp ha).1 hbeq⟩, if_pos hany⟩
  · refine .inr ⟨fun a ha hname => hany ?_, if_neg hany⟩
    exact List.any_eq_true.2 ⟨a, ha, (h.beq_quantity_iff hp ha).2 hname⟩

/-- A name is listed with its first quantity only. -/
theorem IsListed.register (h : p.IsListed) (hp : p.IsSound) (name : String) (v : Option α) :
    (p.register name v).IsListed := by
  have hext := p.extends_register name v
  obtain ⟨-, hsame⟩ | ⟨hnew, hadded⟩ := h.parameters_register hp name v
  · exact h.of_extends hext hsame
  · refine ⟨fun a ha => ?_, ?_⟩
    · rw [hadded] at ha
      obtain ha | ha := List.mem_append.1 ha
      · exact hext.context.lookup (h.lookup a ha)
      · rw [List.mem_singleton.1 ha, name_quantity]
        exact Context.lookup_symbol name p.context
    · rw [hadded, List.map_append, List.map_singleton, name_quantity]
      refine List.nodup_append_comm.1 (List.nodup_cons.2 ⟨fun hmem => ?_, h.nodup⟩)
      obtain ⟨a, ha, hname⟩ := List.mem_map.1 hmem
      exact hnew a ha hname

end

theorem IsListed.step (h : p.IsListed) (hp : p.IsSound) (st : Step α) : (p.step st).IsListed := by
  have hext := p.extends_step st
  rw [step_eq_change] at hext ⊢
  cases st with
  | parameter name => exact (h.register hp name none).of_extends (extends_keep _ _) rfl
  | constant name v | constantSymbol name v =>
    exact (h.register hp name (some v)).of_extends (extends_keep _ _) rfl
  | _ => exact h.of_extends hext rfl

/-- A whole run lists every name once. -/
theorem IsListed.run (h : p.IsListed) (hp : p.IsSound) (steps : List (Step α)) :
    (p.run steps).IsListed := by
  induction steps generalizing p with
  | nil => exact h
  | cons st steps ih => exact ih (h.step hp st) (hp.step st)

/-! ### The first declaration counts -/

/-- The names of the parameters, with their numbers. -/
def registry (p : Progress α) : List (String × Option α) :=
  p.parameters.map fun a => (a.name, a.number)

section

omit [Scalar α]

/-- A parameter is found by its name. -/
theorem IsListed.lookup_registry_iff (h : p.IsListed) {name : String} {v : Option α} :
    p.registry.lookup name = some v ↔ ∃ a ∈ p.parameters, a.name = name ∧ a.number = v := by
  have hfound {w : Option α} (hw : p.registry.lookup name = some w) :
      ∃ a ∈ p.parameters, a.name = name ∧ a.number = w := by
    obtain ⟨l₁, l₂, hsplit, -⟩ := List.lookup_eq_some_iff.1 hw
    have hmem : (name, w) ∈ p.registry := by
      rw [hsplit]
      exact List.mem_append_right _ List.mem_cons_self
    obtain ⟨a, ha, heq⟩ := List.mem_map.1 hmem
    exact ⟨a, ha, congrArg Prod.fst heq, congrArg Prod.snd heq⟩
  constructor
  · exact hfound
  · rintro ⟨a, ha, rfl, rfl⟩
    have hsome : (p.registry.lookup a.name).isSome :=
      List.lookup_isSome_iff.2 ⟨_, List.mem_map_of_mem ha, beq_self_eq_true _⟩
    obtain ⟨w, hw⟩ := Option.isSome_iff_exists.1 hsome
    obtain ⟨b, hb, hname, hnumber⟩ := hfound hw
    rw [hw, ← hnumber, List.inj_on_of_nodup_map h.nodup hb ha hname]

/-- A declaration counts if none of the name came before. -/
theorem IsListed.lookup_registry_register (h : p.IsListed) (hp : p.IsSound) (name : String)
    (v : Option α) (n : String) :
    (p.register name v).registry.lookup n = (p.registry ++ [(name, v)]).lookup n := by
  obtain ⟨⟨a, ha, hname⟩, hsame⟩ | ⟨-, hadded⟩ := h.parameters_register hp name v
  · rw [registry, hsame, ← registry, List.lookup_append]
    by_cases hn : n = name
    · have hlisted : p.registry.lookup n = some a.number :=
        h.lookup_registry_iff.2 ⟨a, ha, hname.trans hn.symm, rfl⟩
      rw [hlisted, Option.some_or]
    · have hother : [(name, v)].lookup n = none :=
        List.lookup_eq_none_iff.2 (List.forall_mem_singleton.2 (by simpa using hn))
      rw [hother, Option.or_none]
  · rw [registry, hadded, List.map_append, List.map_singleton, name_quantity]
    rfl

end

/-- A step registers what it declares. -/
theorem IsListed.lookup_registry_step (h : p.IsListed) (hp : p.IsSound) (st : Step α)
    (n : String) :
    (p.step st).registry.lookup n = (p.registry ++ st.declaration?.toList).lookup n := by
  rw [step_eq_change]
  cases st with
  | parameter name => exact h.lookup_registry_register hp name none n
  | constant name v | constantSymbol name v => exact h.lookup_registry_register hp name (some v) n
  | _ => exact congrArg (List.lookup n) (List.append_nil _).symm

/-- A parameter is listed as it was declared first. -/
theorem IsListed.lookup_registry_run (h : p.IsListed) (hp : p.IsSound) (steps : List (Step α))
    (n : String) :
    (p.run steps).registry.lookup n = (p.registry ++ Script.declarations steps).lookup n := by
  induction steps generalizing p with
  | nil => exact congrArg (List.lookup n) (List.append_nil _).symm
  | cons st steps ih =>
    calc ((p.step st).run steps).registry.lookup n
      _ = ((p.step st).registry ++ Script.declarations steps).lookup n :=
        ih (h.step hp st) (hp.step st)
      _ = ((p.registry ++ st.declaration?.toList) ++ Script.declarations steps).lookup n := by
        rw [List.lookup_append, h.lookup_registry_step hp st n, ← List.lookup_append]
      _ = (p.registry ++ Script.declarations (st :: steps)).lookup n := by
        rw [Script.declarations_cons, List.append_assoc]

/-! ### Everything that is given out is declared -/

/-- The symbol is the potential or the flow of an edge, a parameter without a number, an auxiliary,
or a timestep that is a symbol in formulas. -/
def Declares (p : Progress α) (s : Symbol) : Prop :=
  (∃ e ∈ p.topology.edges, s.name = e.name ++ ".pot" ∨ s.name = e.name ++ ".flw") ∨
  (∃ a ∈ p.parameters, a.number = none ∧ a.name = s.name) ∨
  (∃ a ∈ p.discretization.auxiliaries, a.name = s.name) ∨
  (p.context.stepNumber = none ∧ s.name = Context.timestepName)

/-- The symbol is declared, or has an exposed name, which is that of a parameter with a number. -/
def Admits (R : String → Prop) (p : Progress α) (s : Symbol) : Prop :=
  p.Declares s ∨ (R s.name ∧ ∃ a ∈ p.parameters, a.number ≠ none ∧ a.name = s.name)

/-- What the session has given out and written down mentions only what it declares, apart from
exposed parameters with a number. -/
structure IsCovered (R : String → Prop) (p : Progress α) : Prop where
  results : ∀ e ∈ p.results, e.Within (p.Admits R)
  relations : ∀ r ∈ p.relations, r.Within (p.Admits R)
  unknowns : ∀ u ∈ p.unknowns, p.Admits R u
  support : ∀ r ∈ p.discretization.support, r.Within (p.Admits R)

variable {R : String → Prop}

theorem isCovered_start (R : String → Prop) (k : Context α) :
    IsCovered R { toSession := { context := k } } :=
  ⟨List.forall_mem_nil _, List.forall_mem_nil _, List.forall_mem_nil _, List.forall_mem_nil _⟩

theorem Extends.declares (h : p.Extends q) {s : Symbol} (hs : p.Declares s) : q.Declares s := by
  obtain ⟨e, he, hname⟩ | ⟨a, ha, hname⟩ | ⟨a, ha, hname⟩ | ⟨hstep, hname⟩ := hs
  · exact .inl ⟨e, h.edges he, hname⟩
  · exact .inr (.inl ⟨a, h.parameters ha, hname⟩)
  · exact .inr (.inr (.inl ⟨a, h.auxiliaries ha, hname⟩))
  · rw [← Context.stepNumber_congr h.context.timestep] at hstep
    exact .inr (.inr (.inr ⟨hstep, hname⟩))

/-- What is admitted stays so. -/
theorem Extends.admits (h : p.Extends q) (s : Symbol) (hs : p.Admits R s) : q.Admits R s :=
  hs.imp h.declares fun ⟨hR, a, ha, hname⟩ => ⟨hR, a, h.parameters ha, hname⟩

/-- A later session is covered, if what it adds is. -/
theorem IsCovered.of_extends (h : p.IsCovered R) (hext : p.Extends q)
    (hresults : ∀ e ∈ q.results, e ∈ p.results ∨ e.Within (q.Admits R))
    (hrelations : ∀ r ∈ q.relations, r ∈ p.relations ∨ r.Within (q.Admits R))
    (hunknowns : ∀ u ∈ q.unknowns, u ∈ p.unknowns ∨ q.Admits R u)
    (hsupport : ∀ r ∈ q.discretization.support,
      r ∈ p.discretization.support ∨ r.Within (q.Admits R)) : q.IsCovered R where
  results e he := (hresults e he).elim (fun hold => (h.results e hold).imp hext.admits) id
  relations r hr := (hrelations r hr).elim (fun hold => (h.relations r hold).imp hext.admits) id
  unknowns u hu := (hunknowns u hu).elim (fun hold => hext.admits u (h.unknowns u hold)) id
  support r hr := (hsupport r hr).elim (fun hold => (h.support r hold).imp hext.admits) id

/-- A later session that only adds a result. -/
theorem IsCovered.of_result (h : p.IsCovered R) (hext : p.Extends q) {e : Expr α}
    (hresults : q.results = p.results ++ [e]) (hrelations : q.relations = p.relations)
    (hunknowns : q.unknowns = p.unknowns) (hdiscretization : q.discretization = p.discretization)
    (he : e.Within (q.Admits R)) : q.IsCovered R := by
  refine h.of_extends hext (fun d hd => ?_) (fun r hr => .inl (hrelations ▸ hr))
    (fun u hu => .inl (hunknowns ▸ hu)) (fun r hr => .inl (hdiscretization ▸ hr))
  rw [hresults] at hd
  refine (List.mem_append.1 hd).imp_right fun hd => ?_
  rwa [List.mem_singleton.1 hd]

theorem IsCovered.addEdge (h : p.IsCovered R) (e : Edge) : (p.addEdge e).IsCovered R :=
  h.of_extends (p.extends_addEdge e) (fun _ => .inl) (fun _ => .inl) (fun _ => .inl) fun _ => .inl

theorem IsCovered.keep (h : p.IsCovered R) {e : Expr α} (he : e.Within (p.Admits R)) :
    (p.keep e).IsCovered R :=
  h.of_result (p.extends_keep e) rfl rfl rfl rfl he

theorem IsCovered.intern (h : p.IsCovered R) {name : String}
    (hname : ∀ s : Symbol, s.name = name → p.Declares s) : (p.intern name).IsCovered R :=
  h.of_result (p.extends_intern name) rfl rfl rfl rfl (within_symbol_iff.2
    (.inl ((p.extends_intern name).declares (hname _ (name_quantity p name none)))))

theorem IsCovered.register (h : p.IsCovered R) (name : String) (v : Option α) :
    (p.register name v).IsCovered R :=
  h.of_extends (p.extends_register name v) (fun _ => .inl) (fun _ => .inl) (fun _ => .inl)
    fun _ => .inl

/-- The symbol of a parameter is admitted, whether it was declared before or not, with a number or
without one. -/
theorem IsListed.admits_register (h : p.IsListed) (hp : p.IsSound) {name : String} (hR : R name)
    (v : Option α) : (p.register name v).Admits R (p.quantity name v).symbol := by
  have hname : (p.quantity name v).symbol.name = name := name_quantity p name v
  obtain ⟨a, ha, haname⟩ : ∃ a ∈ (p.register name v).parameters, a.name = name := by
    obtain ⟨⟨a, ha, haname⟩, hsame⟩ | ⟨-, hadded⟩ := h.parameters_register hp name v
    · exact ⟨a, hsame ▸ ha, haname⟩
    · rw [hadded]
      exact ⟨_, List.mem_append_right _ List.mem_cons_self, hname⟩
  by_cases hnumber : a.number = none
  · exact .inl (.inr (.inl ⟨a, ha, hnumber, haname.trans hname.symm⟩))
  · exact .inr ⟨hname.symm ▸ hR, a, ha, hnumber, haname.trans hname.symm⟩

theorem within_timestepExpr_admits (hp : p.IsSound) :
    p.context.timestepExpr.Within (p.Admits R) := by
  rw [Context.timestepExpr_eq]
  cases hstep : p.context.stepNumber with
  | some v => exact within_number v
  | none =>
    exact within_symbol_iff.2
      (.inl (.inr (.inr (.inr ⟨hstep, (Context.lookup_spec hp.context.timestep).2⟩))))

/-- An operator uses its operand, the timestep and an auxiliary of its own. -/
theorem IsCovered.operate (h : p.IsCovered R) {stem : String}
    {result refreshed : Expr α → Expr α → Expr α} (hq : (p.operate stem result refreshed).IsSound)
    (hresult : ∀ {P a ts}, (∀ e ∈ p.results, e.Within P) → a.Within P → ts.Within P →
      (result a ts).Within P)
    (hrefreshed : ∀ {P a ts}, (∀ e ∈ p.results, e.Within P) → a.Within P → ts.Within P →
      (refreshed a ts).Within P) : (p.operate stem result refreshed).IsCovered R := by
  have hext := p.extends_operate stem result refreshed
  have hbefore : ∀ e ∈ p.results, e.Within ((p.operate stem result refreshed).Admits R) :=
    fun e he => (h.results e he).imp hext.admits
  have hself : (Expr.symbol (Context.freshSymbol stem p.context).1 : Expr α).Within
      ((p.operate stem result refreshed).Admits R) :=
    within_symbol_iff.2
      (.inl (.inr (.inr (.inl ⟨_, List.mem_append_right _ List.mem_cons_self, rfl⟩))))
  have hts := within_timestepExpr_admits (R := R) hq
  refine h.of_extends hext (fun e he => ?_) (fun _ => .inl) (fun _ => .inl) fun r hr => ?_
  · refine (List.mem_append.1 he).imp_right fun he => ?_
    rw [List.mem_singleton.1 he]
    exact hresult hbefore hself hts
  · refine (List.mem_append.1 hr).imp_right fun hr => ?_
    rw [List.mem_singleton.1 hr]
    exact ⟨hself, hrefreshed hbefore hself hts⟩

theorem IsCovered.relate (h : p.IsCovered R) {r : Equation α} (hr : r.Within (p.Admits R)) :
    (p.relate r).IsCovered R := by
  refine h.of_extends (p.extends_relate r) (fun _ => .inl) (fun r' hr' => ?_) (fun _ => .inl)
    fun _ => .inl
  simp only [Progress.relate] at hr'
  split at hr'
  · refine (List.mem_append.1 hr').imp_right fun hr' => ?_
    rw [List.mem_singleton.1 hr']
    exact hr
  · exact .inl hr'

theorem IsCovered.list (h : p.IsCovered R) {e : Expr α} (he : e.Within (p.Admits R)) :
    (p.list e).IsCovered R := by
  refine h.of_extends (p.extends_list e) (fun _ => .inl) (fun _ => .inl) (fun u hu => ?_)
    fun _ => .inl
  simp only [Progress.list] at hu
  split at hu
  · split at hu
    · exact .inl hu
    · refine (List.mem_append.1 hu).imp_right fun hu => ?_
      rw [List.mem_singleton.1 hu]
      exact within_symbol_iff.1 he
  · exact .inl hu

/-- What a step keeps that gives out no symbol by its name alone. -/
theorem IsCovered.step (h : p.IsCovered R) (hp : p.IsSound) (hlisted : p.IsListed) {st : Step α}
    (hst : ∀ name, st ≠ .symbol name) (hR : ∀ name, st.exposed? = some name → R name) :
    (p.step st).IsCovered R := by
  have hoperand {P : Symbol → Prop} (o : Operand α) (hP : ∀ e ∈ p.results, e.Within P) :
      (o.expr p.results).Within P := Operand.within_expr hP o
  have hparameter {name : String} (v : Option α) (hname : R name) :
      ((p.register name v).keep (.symbol (p.quantity name v).symbol)).IsCovered R :=
    (h.register name v).keep (within_symbol_iff.2 (hlisted.admits_register hp hname v))
  have hsound := hp.step st
  rw [step_eq_change] at hsound ⊢
  cases st with
  | potential e =>
    obtain ⟨d, hd, hname⟩ := Topology.exists_name_addEdge p.topology e
    exact (h.addEdge e).intern fun s hs => .inl ⟨d, hd, .inl (by rw [hs, hname])⟩
  | flow e =>
    obtain ⟨d, hd, hname⟩ := Topology.exists_name_addEdge p.topology e
    exact (h.addEdge e).intern fun s hs => .inl ⟨d, hd, .inr (by rw [hs, hname])⟩
  | symbol name => exact absurd rfl (hst name)
  | parameter name => exact hparameter none (hR name rfl)
  | constant name v => exact (h.register name (some v)).keep (within_number v)
  | constantSymbol name v => exact hparameter (some v) (hR name rfl)
  | timestep => exact h.keep (within_timestepExpr_admits hp)
  | define o => exact h.keep (hoperand o h.results)
  | integral o =>
    rw [change] at hsound ⊢
    exact h.operate hsound
      (fun hP ha hts => within_plus ha (within_times (hoperand o hP) hts))
      (fun hP _ hts => within_times (hoperand o hP) hts)
  | derivative o =>
    have hrate {P : Symbol → Prop} {a ts : Expr α} (hP : ∀ e ∈ p.results, e.Within P)
        (ha : a.Within P) (hts : ts.Within P) : ((o.expr p.results - a) / ts).Within P :=
      within_over (within_minus (hoperand o hP) ha) hts
    rw [change] at hsound ⊢
    exact h.operate hsound hrate hrate
  | relate lhs rhs => exact h.relate ⟨hoperand lhs h.results, hoperand rhs h.results⟩
  | unknown o => exact h.list (hoperand o h.results)

/-- What any number of such steps keep. -/
theorem IsCovered.run (h : p.IsCovered R) (hp : p.IsSound) (hlisted : p.IsListed)
    {steps : List (Step α)} (hsteps : ∀ name, .symbol name ∉ steps)
    (hR : ∀ name, Script.Exposes steps name → R name) : (p.run steps).IsCovered R := by
  induction steps generalizing p with
  | nil => exact h
  | cons st steps ih =>
    have hstep : (p.step st).IsCovered R :=
      h.step hp hlisted (fun name heq => hsteps name (heq ▸ List.mem_cons_self))
        fun name hname => hR name ⟨st, List.mem_cons_self, hname⟩
    exact ih hstep (hp.step st) (hlisted.step hp st)
      (fun name hmem => hsteps name (List.mem_cons_of_mem _ hmem))
      fun name ⟨st', hmem, hname⟩ => hR name ⟨st', List.mem_cons_of_mem _ hmem, hname⟩

/-! ### The system of a session -/

theorem isRegistered_step (st : Step α) (h : p.topology.IsRegistered) :
    (p.step st).topology.IsRegistered := by
  rw [step_eq_change]
  cases st with
  | potential e | flow e => exact h.addEdge e
  | _ => exact h

/-- Every step registers its edge, if it has one. -/
theorem isRegistered_run (h : p.topology.IsRegistered) (steps : List (Step α)) :
    (p.run steps).topology.IsRegistered :=
  List.foldlRecOn (motive := fun q : Progress α => q.topology.IsRegistered) steps _ h
    fun _ hq st _ => isRegistered_step st hq

/-- The equations of the system mention what the session declares. -/
theorem IsCovered.equations (h : p.IsCovered R) :
    ∀ q ∈ p.finish.1.equations, q.Within (p.Admits R) := by
  have hlaws : ∀ q ∈ p.finish.1.potentialLaws ++ p.finish.1.flowLaws, q.Within (p.Admits R) :=
    (p.topology.isAnalysis p.context).within
      (fun e he s hs => .inl (.inl ⟨e, he, .inl (Context.lookup_spec hs).2⟩))
      fun e he s hs => .inl (.inl ⟨e, he, .inr (Context.lookup_spec hs).2⟩)
  intro q hq
  rw [System.equations, List.append_assoc] at hq
  exact (List.mem_append.1 hq).elim (h.relations q) (hlaws q)

end Progress

end Kirchhoff
