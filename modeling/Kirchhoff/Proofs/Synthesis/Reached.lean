import Kirchhoff.Proofs.Network.Laws
import Kirchhoff.Proofs.Synthesis.Script

/-!
# Contexts that are reached

A session that runs a script stays sound (`Progress.IsSound.run`): its auxiliaries have labels for
their names and numbers in increasing order, and the equation that refreshes an auxiliary mentions
no symbol that was interned after it. The analysis at the end of a session only interns symbols
(`Topology.isGrowing_analyze`).

A context is reached when operations, syntheses and resets lead to it from a new one. All of these
keep it sound (`Context.IsReached.isSound`).
-/

namespace Kirchhoff

open Kirchhoff.Expr

variable {α : Type}

/-! ### The timestep in formulas -/

namespace Context

variable [Scalar α] {k k' : Context α}

theorem timestepExpr_congr (h : k'.timestep = k.timestep) : k'.timestepExpr = k.timestepExpr := by
  rw [timestepExpr, timestepExpr, h]

theorem IsSound.within_timestepExpr (h : k.IsSound) :
    k.timestepExpr.Within (· ∈ k.symbols.symbols) := by
  have hts := (lookup_spec h.timestep).1
  unfold timestepExpr
  split
  · split
    · exact within_number _
    · exact within_symbol_iff.2 hts
  · exact within_symbol_iff.2 hts

end Context

/-! ### Names of auxiliaries -/

/-- The name is not one that an auxiliary can have. -/
def IsPlain (name : String) : Prop :=
  ∀ n, name ≠ Labels.label Discretization.integralStem n ∧
    name ≠ Labels.label Discretization.derivativeStem n

/-- The labels of the stem are names of auxiliaries. -/
def IsOperatorStem (stem : String) : Prop := ∀ n, ¬IsPlain (Labels.label stem n)

theorem isOperatorStem_integral : IsOperatorStem Discretization.integralStem :=
  fun n h => (h n).1 rfl

theorem isOperatorStem_derivative : IsOperatorStem Discretization.derivativeStem :=
  fun n h => (h n).2 rfl

/-- A label ends in a digit. -/
theorem isPlain_of_getLast? {name : String} {c : Char} (h : name.toList.getLast? = some c)
    (hc : c.isDigit = false) : IsPlain name := by
  have hlabel (stem : String) (n : ℕ) : name ≠ Labels.label stem n := by
    rintro rfl
    rw [Labels.isDigit_of_getLast?_label h] at hc
    cases hc
  exact fun n => ⟨hlabel _ n, hlabel _ n⟩

theorem isPlain_potential (name : String) : IsPlain (name ++ ".pot") :=
  isPlain_of_getLast? (c := 't') (by simp) (by decide)

theorem isPlain_flow (name : String) : IsPlain (name ++ ".flw") :=
  isPlain_of_getLast? (c := 'w') (by simp) (by decide)

theorem isPlain_timestepName : IsPlain Context.timestepName :=
  isPlain_of_getLast? (c := 's') (by decide) (by decide)

/-! ### Sessions that are sound -/

/-- The equation refreshes the auxiliary, by means of symbols that are not younger. -/
def Refreshes (q : Equation α) (a : Quantity α) : Prop :=
  q.lhs = .symbol a.symbol ∧ q.rhs.Within (·.id ≤ a.symbol.id)

namespace Progress

/-- The context is sound, what was written down is in its table, and every auxiliary is interned
under a label of its own, after those before it. -/
structure IsSound (p : Progress α) : Prop where
  context : p.context.IsSound
  results : ∀ e ∈ p.results, e.Within (·.id < p.context.symbols.next)
  auxiliaries : ∀ a ∈ p.discretization.auxiliaries,
    a.symbol ∈ p.context.symbols.symbols ∧ ¬IsPlain a.name ∧ a.number = none
  increasing : p.discretization.auxiliaries.Pairwise (·.symbol.id < ·.symbol.id)
  refreshes : List.Forall₂ Refreshes p.discretization.support p.discretization.auxiliaries

variable {p q : Progress α}

theorem isSound_start {k : Context α} (hk : k.IsSound) :
    IsSound { toSession := { context := k } } :=
  ⟨hk, List.forall_mem_nil _, List.forall_mem_nil _, List.Pairwise.nil, List.Forall₂.nil⟩

theorem lt_of_within_lt {e : Expr α} {m n : ℕ} (h : e.Within (·.id < m)) (hmn : m ≤ n) :
    e.Within (·.id < n) :=
  h.imp fun _ hs => hs.trans_le hmn

/-- Interning and issuing labels keeps what is sound. -/
theorem IsSound.of_grows (h : p.IsSound) (hgrows : p.context.Grows q.context)
    (hdiscretization : q.discretization = p.discretization)
    (hresults : ∀ e ∈ q.results, e ∈ p.results ∨ e.Within (·.id < q.context.symbols.next)) :
    q.IsSound where
  context := hgrows.isSound h.context
  results e he := (hresults e he).elim
    (fun hold => lt_of_within_lt (h.results e hold) hgrows.next_le) id
  auxiliaries a ha := by
    rw [hdiscretization] at ha
    exact (h.auxiliaries a ha).imp_left hgrows.mem
  increasing := by
    rw [hdiscretization]
    exact h.increasing
  refreshes := by
    rw [hdiscretization]
    exact h.refreshes

theorem IsSound.addEdge (h : p.IsSound) (e : Edge) : (p.addEdge e).IsSound :=
  h.of_grows .refl rfl fun _ he => .inl he

theorem IsSound.keep (h : p.IsSound) {e : Expr α} (he : e.Within (·.id < p.context.symbols.next)) :
    (p.keep e).IsSound :=
  h.of_grows .refl rfl fun d hd => (List.mem_append.1 hd).imp_right fun hd => by
    rwa [List.mem_singleton.1 hd]

/-- The symbol of a name may be a new one. -/
theorem IsSound.symbol_lt_next (h : p.IsSound) (name : String) :
    (Context.symbol name p.context).1.id < (Context.symbol name p.context).2.symbols.next :=
  (h.context.symbol name).isNumbered.lt_next _
    (Context.lookup_spec (Context.lookup_symbol name p.context)).1

theorem IsSound.intern (h : p.IsSound) (name : String) : (p.intern name).IsSound :=
  h.of_grows (Context.isGrowing_symbol name p.context) rfl fun e he =>
    (List.mem_append.1 he).imp_right fun he => by
      rw [List.mem_singleton.1 he]
      exact within_symbol_iff.2 (h.symbol_lt_next name)

theorem IsSound.register (h : p.IsSound) (name : String) (v : Option α) :
    (p.register name v).IsSound :=
  h.of_grows (Context.isGrowing_symbol name p.context) rfl fun _ he => .inl he

/-- No two auxiliaries have the same name. -/
theorem IsSound.nodup_auxiliaries (h : p.IsSound) :
    (p.discretization.auxiliaries.map (·.name)).Nodup := by
  refine List.pairwise_map.2 (h.increasing.imp_of_mem fun {a b} ha hb hlt hname => hlt.ne ?_)
  have hlookup := h.context.lookup_name (h.auxiliaries a ha).1
  rw [show a.symbol.name = b.symbol.name from hname,
    h.context.lookup_name (h.auxiliaries b hb).1] at hlookup
  rw [Option.some.inj hlookup]

variable [Scalar α]

/-- An operator interns its auxiliary after all symbols that it mentions. -/
theorem IsSound.operate {stem : String} {result refreshed : Expr α → Expr α → Expr α}
    (h : p.IsSound) (hstem : IsOperatorStem stem)
    (hresult : ∀ {P a ts}, (∀ e ∈ p.results, e.Within P) → a.Within P → ts.Within P →
      (result a ts).Within P)
    (hrefreshed : ∀ {P a ts}, (∀ e ∈ p.results, e.Within P) → a.Within P → ts.Within P →
      (refreshed a ts).Within P) : (p.operate stem result refreshed).IsSound := by
  obtain ⟨n, l, hlookup, hfresh⟩ := Context.freshSymbol_spec stem p.context
  have hgrows := Context.isGrowing_freshSymbol stem p.context
  have hsound := hgrows.isSound h.context
  have hts := hsound.within_timestepExpr
  unfold Progress.operate
  rw [hfresh] at hgrows hsound hts ⊢
  -- All symbols so far have numbers below that of the auxiliary.
  have hbefore : ∀ e ∈ p.results, e.Within (·.id ≤ p.context.symbols.next) :=
    fun e he s hs => (h.results e he s hs).le
  have hself : (Expr.symbol ⟨p.context.symbols.next, Labels.label stem n⟩ : Expr α).Within
      (·.id ≤ p.context.symbols.next) := within_symbol_iff.2 le_rfl
  have hnumber := fun s hs => Nat.le_of_lt_succ (hsound.isNumbered.lt_next s (hts s hs))
  refine ⟨hsound, fun e he => ?_, fun a ha => ?_, ?_, ?_⟩
  · obtain he | he := List.mem_append.1 he
    · exact lt_of_within_lt (h.results e he) hgrows.next_le
    · rw [List.mem_singleton.1 he]
      exact fun s hs => Nat.lt_succ_of_le (hresult hbefore hself hnumber s hs)
  · obtain ha | ha := List.mem_append.1 ha
    · exact (h.auxiliaries a ha).imp_left hgrows.mem
    · rw [List.mem_singleton.1 ha]
      exact ⟨List.mem_append_right _ (List.mem_singleton_self _), hstem n, rfl⟩
  · refine List.pairwise_append.2 ⟨h.increasing, List.pairwise_singleton _ _, fun a ha b hb => ?_⟩
    rw [List.mem_singleton.1 hb]
    exact h.context.isNumbered.lt_next _ (h.auxiliaries a ha).1
  · exact List.rel_append h.refreshes
      (.cons ⟨rfl, hrefreshed hbefore hself hnumber⟩ .nil)

/-- What a step keeps. -/
theorem IsSound.step (h : p.IsSound) (st : Step α) : (p.step st).IsSound := by
  have hoperand {P : Symbol → Prop} (o : Operand α) (hP : ∀ e ∈ p.results, e.Within P) :
      (o.expr p.results).Within P := Operand.within_expr hP o
  rw [step_eq_change]
  cases st with
  | potential e =>
    exact (h.addEdge e).intern _
  | flow e =>
    exact (h.addEdge e).intern _
  | symbol name =>
    exact h.intern name
  | parameter name =>
    exact (h.register name none).keep (within_symbol_iff.2 (h.symbol_lt_next name))
  | constant name v =>
    exact (h.register name (some v)).keep (within_number v)
  | constantSymbol name v =>
    exact (h.register name (some v)).keep (within_symbol_iff.2 (h.symbol_lt_next name))
  | timestep =>
    exact h.keep fun s hs =>
      h.context.isNumbered.lt_next s (h.context.within_timestepExpr s hs)
  | define o =>
    exact h.keep (hoperand o h.results)
  | integral o =>
    exact h.operate isOperatorStem_integral
      (fun hP ha hts => within_plus ha (within_times (hoperand o hP) hts))
      (fun hP _ hts => within_times (hoperand o hP) hts)
  | derivative o =>
    have hrate {P : Symbol → Prop} {a ts : Expr α} (hP : ∀ e ∈ p.results, e.Within P)
        (ha : a.Within P) (hts : ts.Within P) : ((o.expr p.results - a) / ts).Within P :=
      within_over (within_minus (hoperand o hP) ha) hts
    exact h.operate isOperatorStem_derivative hrate hrate
  | relate lhs rhs =>
    exact h.of_grows .refl rfl fun _ he => .inl he
  | unknown o =>
    exact h.of_grows .refl rfl fun _ he => .inl he

/-- What any number of steps keep. -/
theorem IsSound.run (h : p.IsSound) (steps : List (Step α)) : (p.run steps).IsSound :=
  List.foldlRecOn (motive := IsSound) steps _ h fun _ hp st _ => hp.step st

/-! ### What sessions do to the context -/

/-- A step interns a name, issues a label, or leaves the context alone. -/
theorem context_step (p : Progress α) (st : Step α) :
    (p.step st).context = p.context ∨
    (∃ name, (p.step st).context = (Context.symbol name p.context).2) ∨
    ∃ stem, (p.step st).context = (Context.freshSymbol stem p.context).2 := by
  rw [step_eq_change]
  cases st with
  | potential _ | flow _ | symbol _ | parameter _ | constant _ _ | constantSymbol _ _ =>
    exact .inr (.inl ⟨_, rfl⟩)
  | integral _ | derivative _ => exact .inr (.inr ⟨_, rfl⟩)
  | _ => exact .inl rfl

/-- What interning names and issuing labels keep, sessions keep. -/
theorem context_run {I : Context α → Prop} (hsymbol : ∀ name, Context.Keeps I (Context.symbol name))
    (hfresh : ∀ stem, Context.Keeps I (Context.freshSymbol stem)) (h : I p.context)
    (steps : List (Step α)) : I (p.run steps).context := by
  induction steps generalizing p with
  | nil => exact h
  | cons st steps ih =>
    refine ih ?_
    obtain hsame | ⟨name, hname⟩ | ⟨stem, hstem⟩ := p.context_step st
    · rwa [hsame]
    · exact hname ▸ hsymbol name _ h
    · exact hstem ▸ hfresh stem _ h

end Progress

/-! ### The end of a session -/

namespace Topology

variable (t : Topology) {I : Context α → Prop}

section

variable (hsymbol : ∀ name, Context.Keeps I (Context.symbol name))

include hsymbol

theorem keeps_potential (i : ℕ) : Context.Keeps I (t.potential i) :=
  (hsymbol _).bind fun _ => Context.keeps_pure _

theorem keeps_flow (i : ℕ) : Context.Keeps I (t.flow i) :=
  (hsymbol _).bind fun _ => Context.keeps_pure _

theorem keeps_parallelLaws (p : ParallelGroup) : Context.Keeps I (t.parallelLaws p) :=
  (t.keeps_potential hsymbol _).bind fun _ => .mapM
    (fun i => (t.keeps_potential hsymbol i).bind fun _ => Context.keeps_pure _) _

variable [Scalar α]

theorem keeps_loopLaw (l : Loop) : Context.Keeps I (t.loopLaw l) :=
  Context.Keeps.bind (.mapM (t.keeps_potential hsymbol) _) fun _ =>
    .bind (.mapM (t.keeps_potential hsymbol) _) fun _ => Context.keeps_pure _

theorem keeps_signedFlow (term : ℕ × Int) : Context.Keeps I (t.signedFlow term) :=
  (t.keeps_flow hsymbol term.1).bind fun _ => Context.keeps_pure _

theorem keeps_nodeLaw (terms : List (ℕ × Int)) : Context.Keeps I (t.nodeLaw terms) :=
  Context.Keeps.bind (.mapM (t.keeps_signedFlow hsymbol) _) fun _ => Context.keeps_pure _

/-- What interning names keeps, an analysis keeps. -/
theorem keeps_analyze : Context.Keeps I t.analyze :=
  Context.Keeps.bind (.mapM (t.keeps_loopLaw hsymbol) _) fun _ =>
    .bind (.mapM (t.keeps_parallelLaws hsymbol) _) fun _ =>
      .bind (.mapM (t.keeps_nodeLaw hsymbol) _) fun _ => Context.keeps_pure _

end

/-- An analysis only interns symbols. -/
theorem isGrowing_analyze [Scalar α] : Context.IsGrowing (α := α) t.analyze := fun k =>
  t.keeps_analyze (I := k.Grows) (fun name _ h => h.symbol name) k .refl

end Topology

/-! ### Contexts that are reached -/

namespace Context

/-- What can be done with a context. -/
inductive Operation (α : Type) where
  | symbol (name : String)
  /-- A fresh label of a stem. -/
  | fresh (stem : String)
  | potential (e : Edge)
  | flow (e : Edge)
  /-- A number for the timestep, which is refused if it is not valid. -/
  | setTimestep (dt : α)
  | reset
  /-- An integral, apart from any session. -/
  | integral (d : Discretization α) (e : Expr α)
  /-- A derivative, apart from any session. -/
  | derivative (d : Discretization α) (e : Expr α)
  | analyze (t : Topology)
  /-- A synthesis of a script. -/
  | synthesize (steps : List (Step α))

variable [Scalar α]

/-- The context after an operation. -/
def Operation.run (k : Context α) : Operation α → Context α
  | .symbol name => (Context.symbol name k).2
  | .fresh stem => (freshSymbol stem k).2
  | .potential e => (Context.potential e k).2
  | .flow e => (Context.flow e k).2
  | .setTimestep dt => (k.withTimestep dt).toOption.getD k
  | .reset => k.reset
  | .integral d e => (d.integral e k).2
  | .derivative d e => (d.derivative e k).2
  | .analyze t => (t.analyze (α := α) k).2
  | .synthesize steps => (Kirchhoff.synthesize (Script.model steps) k).2

/-- Some operations lead from a new context to this one. -/
def IsReached (k : Context α) : Prop :=
  ∃ ops : List (Operation α), ops.foldl Operation.run new = k

variable {k : Context α}

/-- What interning names, issuing labels and numbers for the timestep keep, all operations keep but
for resets. -/
theorem Operation.keeps {I : Context α → Prop} (hsymbol : ∀ name, Keeps I (Context.symbol name))
    (hfresh : ∀ stem, Keeps I (freshSymbol stem))
    (htimestep : ∀ {k k' : Context α} {dt}, I k → k.withTimestep dt = .ok k' → I k')
    {op : Operation α} (hop : op ≠ .reset) (h : I k) : I (op.run k) := by
  cases op with
  | symbol name => exact hsymbol name k h
  | fresh stem => exact hfresh stem k h
  | potential e => exact hsymbol _ k h
  | flow e => exact hsymbol _ k h
  | setTimestep dt =>
    cases hdt : k.withTimestep dt with
    | error e => simpa [Operation.run, hdt, Except.toOption] using h
    | ok k' => simpa [Operation.run, hdt, Except.toOption] using htimestep h hdt
  | reset => exact absurd rfl hop
  | integral d e => exact hfresh _ k h
  | derivative d e => exact hfresh _ k h
  | analyze t => exact t.keeps_analyze hsymbol k h
  | synthesize steps =>
    exact Topology.keeps_analyze _ hsymbol _ (Progress.context_run hsymbol hfresh h steps)

theorem IsSound.operation (h : k.IsSound) (op : Operation α) : (op.run k).IsSound := by
  cases op with
  | reset => exact isSound_reset k
  | _ =>
    exact Operation.keeps (fun name _ h => h.symbol name)
      (fun stem k h => (isGrowing_freshSymbol stem k).isSound h)
      (fun h hdt => h.withTimestep hdt) (by simp) h

/-- A context that is reached is sound. -/
theorem IsReached.isSound (h : k.IsReached) : k.IsSound := by
  obtain ⟨ops, rfl⟩ := h
  exact List.foldlRecOn (motive := IsSound) ops _ isSound_new fun _ hk op _ => hk.operation op

end Context

end Kirchhoff
