import Kirchhoff.Proofs.Expr.Renaming
import Kirchhoff.Proofs.Synthesis.Reached

/-!
# A synthesis does not depend on the history of its context

Two contexts that have been used in different ways give different numbers to the symbols of a
script, and different labels to its auxiliaries. A renaming that takes the symbols of plain names of
one context to those of the other, and likewise the auxiliaries (`Progress.Renames`), takes
everything that the script declares along: the two sessions mirror each other
(`Progress.Mirrors.step`, `Progress.Mirrors.run`). There is such a renaming
(`Progress.exists_renames`), so the systems are the same up to the labels of the auxiliaries
(`synthesize_renamed`).
-/

namespace Kirchhoff

open Kirchhoff.Expr

variable {α : Type}

/-! ### Operands -/

namespace Operand

variable [Scalar α] (f : Renaming) (results : List (Expr α))

mutual

/-- An operand over renamed results is the operand renamed. -/
theorem rename_expr :
    ∀ o : Operand α, (o.expr results).rename f = o.expr (results.map (Expr.rename f))
  | .number v => rfl
  | .result i => by
    rw [expr, expr, List.getD_eq_getElem?_getD, List.getD_eq_getElem?_getD, List.getElem?_map]
    cases results[i]? <;> rfl
  | .sum ts => by rw [expr, expr, rename_sum, rename_exprs ts]
  | .product fs => by rw [expr, expr, rename_product, rename_exprs fs]
  | .power b x => by rw [expr, expr, rename_power, rename_expr b, rename_expr x]
  | .add ts => by rw [expr, expr, rename_add, rename_exprs ts]
  | .mul fs => by rw [expr, expr, rename_mul, rename_exprs fs]
  | .pow b x => by rw [expr, expr, rename_pow, rename_expr b, rename_expr x]
  | .call g args => by rw [expr, expr, rename_call, rename_exprs args]

theorem rename_exprs :
    ∀ os : List (Operand α),
      (exprs results os).map (Expr.rename f) = exprs (results.map (Expr.rename f)) os
  | [] => rfl
  | o :: os => by rw [exprs, exprs, List.map_cons, rename_expr o, rename_exprs os]

end

end Operand

/-! ### Contexts -/

namespace Context

variable {k k' l l' : Context α} {f : Renaming}

/-- The renaming takes the symbols of plain names in one context to those in the other. -/
def Translates (f : Renaming) (k k' : Context α) : Prop :=
  ∀ name x x', IsPlain name → k.lookup name = some x → k'.lookup name = some x' → f x = x'

theorem Translates.of_grows (h : Translates f l l') (hk : k.Grows l) (hk' : k'.Grows l') :
    Translates f k k' :=
  fun name x x' hname hx hx' => h name x x' hname (hk.lookup hx) (hk'.lookup hx')

theorem Translates.timestep (h : Translates f k k') (hk : k.IsSound) (hk' : k'.IsSound) :
    f k.timestep.symbol = k'.timestep.symbol :=
  h _ _ _ isPlain_timestepName hk.timestep hk'.timestep

variable [Scalar α]

/-- The number of the timestep that formulas use. There is none if the timestep is a symbol in
them. -/
def stepNumber (k : Context α) : Option α := k.timestep.number.filter (· != 0)

theorem timestepExpr_eq (k : Context α) :
    k.timestepExpr = (k.stepNumber.map .number).getD (.symbol k.timestep.symbol) := by
  unfold timestepExpr stepNumber
  cases k.timestep.number with
  | none => rfl
  | some dt => by_cases hdt : (dt != 0) = true <;> simp [Option.filter, hdt]

theorem stepNumber_congr (h : l.timestep = k.timestep) : l.stepNumber = k.stepNumber := by
  rw [stepNumber, stepNumber, h]

theorem Translates.timestepExpr (h : Translates f k k') (hk : k.IsSound) (hk' : k'.IsSound)
    (hstep : k.stepNumber = k'.stepNumber) : k.timestepExpr.rename f = k'.timestepExpr := by
  rw [timestepExpr_eq, timestepExpr_eq, hstep, ← h.timestep hk hk']
  cases k'.stepNumber <;> rfl

end Context

/-! ### The laws of a network -/

namespace Context

variable {k k' : Context α} {f : Renaming} {t : Topology}

/-- Potentials are translated edge by edge. -/
theorem Translates.isPotential (h : Translates f k k') {e : Edge} {x x' : Expr α}
    (hx : k.IsPotential e x) (hx' : k'.IsPotential e x') : x.rename f = x' := by
  obtain ⟨s, hs, rfl⟩ := hx
  obtain ⟨s', hs', rfl⟩ := hx'
  rw [rename_symbol, h _ s s' (isPlain_potential e.name) hs hs']

theorem Translates.isFlow (h : Translates f k k') {e : Edge} {x x' : Expr α}
    (hx : k.IsFlow e x) (hx' : k'.IsFlow e x') : x.rename f = x' := by
  obtain ⟨s, hs, rfl⟩ := hx
  obtain ⟨s', hs', rfl⟩ := hx'
  rw [rename_symbol, h _ s s' (isPlain_flow e.name) hs hs']

theorem Translates.equates (h : Translates f k k') {d e : Edge} {q q' : Equation α}
    (hq : k.Equates d e q) (hq' : k'.Equates d e q') : q.rename f = q' := by
  rw [Equation.rename, h.isPotential hq.1 hq'.1, h.isPotential hq.2 hq'.2]

variable [Scalar α]

/-- Loop laws are translated term by term. -/
theorem Translates.isLoopLaw (h : Translates f k k') {l : Loop} {q q' : Equation α}
    (hq : t.IsLoopLaw k l q) (hq' : t.IsLoopLaw k' l q') : q.rename f = q' := by
  obtain ⟨ps, ns, hps, hns, rfl⟩ := hq
  obtain ⟨ps', ns', hps', hns', rfl⟩ := hq'
  have hpositive : ps.map (Expr.rename f) = ps' :=
    map_eq_of_forall₂ hps hps' fun _ _ _ => h.isPotential
  have hnegative : ns.map (Expr.rename f) = ns' :=
    map_eq_of_forall₂ hns hns' fun _ _ _ => h.isPotential
  have hnegate : (ns.map (- ·)).map (Expr.rename f) = ns'.map (- ·) := by
    rw [← hnegative, List.map_map, List.map_map]
    exact List.map_congr_left fun n _ => rename_negate f n
  rw [Equation.rename, rename_sum, List.map_append, hpositive, hnegate, rename_number]

theorem Translates.isSignedFlow (h : Translates f k k') {term : ℕ × Int} {x x' : Expr α}
    (hx : t.IsSignedFlow k term x) (hx' : t.IsSignedFlow k' term x') : x.rename f = x' := by
  obtain ⟨y, hy, rfl⟩ := hx
  obtain ⟨y', hy', rfl⟩ := hx'
  rw [← h.isFlow hy hy']
  by_cases hsign : term.2 < 0
  · rw [if_pos hsign, if_pos hsign, rename_negate]
  · rw [if_neg hsign, if_neg hsign]

theorem Translates.isNodeLaw (h : Translates f k k') {terms : List (ℕ × Int)} {q q' : Equation α}
    (hq : t.IsNodeLaw k terms q) (hq' : t.IsNodeLaw k' terms q') : q.rename f = q' := by
  obtain ⟨xs, hxs, rfl⟩ := hq
  obtain ⟨xs', hxs', rfl⟩ := hq'
  have hflows : xs.map (Expr.rename f) = xs' :=
    map_eq_of_forall₂ hxs hxs' fun _ _ _ => h.isSignedFlow
  rw [Equation.rename, rename_sum, hflows, rename_number]

/-- Two analyses of a topology write the same laws, each with the symbols of its context. -/
theorem Translates.isAnalysis (h : Translates f k k') {a a' : Analysis α}
    (ha : t.IsAnalysis k a) (ha' : t.IsAnalysis k' a') :
    a.potentialLaws.map (Equation.rename f) = a'.potentialLaws ∧
      a.flowLaws.map (Equation.rename f) = a'.flowLaws ∧ a.diagnostics = a'.diagnostics := by
  obtain ⟨loopLaws, equalities, hloops, hequal, hlaws⟩ := ha.potentialLaws
  obtain ⟨loopLaws', equalities', hloops', hequal', hlaws'⟩ := ha'.potentialLaws
  have hloopLaws : loopLaws.map (Equation.rename f) = loopLaws' :=
    map_eq_of_forall₂ hloops hloops' fun _ _ _ => h.isLoopLaw
  have hequalities : equalities.map (List.map (Equation.rename f)) = equalities' :=
    map_eq_of_forall₂ hequal hequal' fun _ _ _ hqs hqs' =>
      map_eq_of_forall₂ hqs hqs' fun _ _ _ => h.equates
  refine ⟨?_, map_eq_of_forall₂ ha.flowLaws ha'.flowLaws fun _ _ _ => h.isNodeLaw, ?_⟩
  · rw [hlaws, hlaws', List.map_append, List.map_flatten, hloopLaws, hequalities]
  · rw [ha.diagnostics, ha'.diagnostics]

end Context

/-! ### Sessions side by side -/

namespace Progress

/-- The renaming takes the symbols of plain names, and the auxiliaries, of one session to those of
the other. -/
structure Renames (f : Renaming) (p p' : Progress α) : Prop where
  plain : Context.Translates f p.context p'.context
  auxiliaries :
    p.discretization.auxiliaries.map (Quantity.rename f) = p'.discretization.auxiliaries

/-- What one session has written down is, renamed, what the other has. -/
structure IsRenamed (f : Renaming) (p p' : Progress α) : Prop where
  results : p.results.map (Expr.rename f) = p'.results
  relations : p.relations.map (Equation.rename f) = p'.relations
  unknowns : p.unknowns.map f = p'.unknowns
  parameters : p.parameters.map (Quantity.rename f) = p'.parameters
  support : p.discretization.support.map (Equation.rename f) = p'.discretization.support

variable {p p' q q' : Progress α} {f : Renaming}

/-- A renaming of later sessions is one of the sessions themselves. -/
theorem Renames.of_grows (h : Renames f q q') (hk : p.context.Grows q.context)
    (hk' : p'.context.Grows q'.context) (hd : q.discretization = p.discretization)
    (hd' : q'.discretization = p'.discretization) : Renames f p p' := by
  refine ⟨h.plain.of_grows hk hk', ?_⟩
  rw [← hd, ← hd', h.auxiliaries]

/-- A parameter is renamed to that of its name and number. -/
theorem Renames.quantity {name : String} {v : Option α}
    (h : Renames f (p.register name v) (p'.register name v)) (hname : IsPlain name) :
    (p.quantity name v).rename f = p'.quantity name v := by
  have hx := h.plain name _ _ hname (Context.lookup_symbol name p.context)
    (Context.lookup_symbol name p'.context)
  exact congrArg (fun x => (⟨x, v⟩ : Quantity α)) hx

theorem any_beq_rename (f : Renaming) (ps : List (Quantity α)) (a : Quantity α) :
    (ps.map (Quantity.rename f)).any (· == a.rename f) = ps.any (· == a) := by
  simp only [List.any_map, Function.comp_def, Quantity.beq_rename]

variable [Scalar α]

/-- Two sessions have declared the same, whichever way their symbols are numbered. -/
structure Mirrors (p p' : Progress α) : Prop where
  topology : p.topology = p'.topology
  stepNumber : p.context.stepNumber = p'.context.stepNumber
  length : p.discretization.auxiliaries.length = p'.discretization.auxiliaries.length
  isRenamed : ∀ f, Renames f p p' → IsRenamed f p p'

theorem mirrors_start {k k' : Context α} (h : k.stepNumber = k'.stepNumber) :
    Mirrors { toSession := { context := k } } { toSession := { context := k' } } :=
  ⟨rfl, h, rfl, fun _ _ => ⟨rfl, rfl, rfl, rfl, rfl⟩⟩

theorem Mirrors.addEdge (h : Mirrors p p') (e : Edge) : Mirrors (p.addEdge e) (p'.addEdge e) where
  topology := congrArg (·.addEdge e) h.topology
  stepNumber := h.stepNumber
  length := h.length
  isRenamed f hf := by
    obtain ⟨hresults, hrelations, hunknowns, hparameters, hsupport⟩ := h.isRenamed f ⟨hf.1, hf.2⟩
    exact ⟨hresults, hrelations, hunknowns, hparameters, hsupport⟩

theorem Mirrors.keep (h : Mirrors p p') {e e' : Expr α}
    (he : ∀ f, Renames f p p' → IsRenamed f p p' → e.rename f = e') :
    Mirrors (p.keep e) (p'.keep e') where
  topology := h.topology
  stepNumber := h.stepNumber
  length := h.length
  isRenamed f hf := by
    have hp : Renames f p p' := ⟨hf.1, hf.2⟩
    have hr := h.isRenamed f hp
    exact ⟨map_concat_eq hr.results (he f hp hr), hr.relations, hr.unknowns, hr.parameters,
      hr.support⟩

theorem Mirrors.relate (h : Mirrors p p') {r r' : Equation α}
    (hr : ∀ f, IsRenamed f p p' → r.rename f = r') : Mirrors (p.relate r) (p'.relate r') where
  topology := h.topology
  stepNumber := h.stepNumber
  length := h.length
  isRenamed f hf := by
    have hp := h.isRenamed f ⟨hf.1, hf.2⟩
    refine ⟨hp.results, ?_, hp.unknowns, hp.parameters, hp.support⟩
    show (if r.isSupported then p.relations ++ [r] else p.relations).map _ =
      if r'.isSupported then p'.relations ++ [r'] else p'.relations
    rw [← hr f hp, Equation.isSupported_rename, apply_ite (List.map (Equation.rename f)),
      map_concat_eq hp.relations rfl, hp.relations]

theorem Mirrors.list (h : Mirrors p p') {e e' : Expr α}
    (he : ∀ f, IsRenamed f p p' → e.rename f = e') : Mirrors (p.list e) (p'.list e') where
  topology := h.topology
  stepNumber := h.stepNumber
  length := h.length
  isRenamed f hf := by
    have hp := h.isRenamed f ⟨hf.1, hf.2⟩
    refine ⟨hp.results, hp.relations, ?_, hp.parameters, hp.support⟩
    obtain rfl := he f hp
    cases e with
    | symbol u =>
      show (if p.unknowns.contains u then p.unknowns else p.unknowns ++ [u]).map _ =
        if p'.unknowns.contains (f u) then p'.unknowns else p'.unknowns ++ [f u]
      rw [← hp.unknowns, f.contains_map, apply_ite (List.map f), map_concat_eq rfl rfl]
    | _ => simpa [Progress.list] using hp.unknowns

theorem Mirrors.intern (h : Mirrors p p') {name : String} (hname : IsPlain name) :
    Mirrors (p.intern name) (p'.intern name) where
  topology := h.topology
  stepNumber := h.stepNumber
  length := h.length
  isRenamed f hf := by
    have hp := h.isRenamed f (hf.of_grows (Context.isGrowing_symbol name p.context)
      (Context.isGrowing_symbol name p'.context) rfl rfl)
    have hx := hf.plain name _ _ hname (Context.lookup_symbol name p.context)
      (Context.lookup_symbol name p'.context)
    exact ⟨map_concat_eq hp.results (congrArg Expr.symbol hx), hp.relations, hp.unknowns,
      hp.parameters, hp.support⟩

theorem Mirrors.register (h : Mirrors p p') {name : String} (hname : IsPlain name) (v : Option α) :
    Mirrors (p.register name v) (p'.register name v) where
  topology := h.topology
  stepNumber := h.stepNumber
  length := h.length
  isRenamed f hf := by
    have hp := h.isRenamed f (hf.of_grows (Context.isGrowing_symbol name p.context)
      (Context.isGrowing_symbol name p'.context) rfl rfl)
    refine ⟨hp.results, hp.relations, hp.unknowns, ?_, hp.support⟩
    show (if p.parameters.any (· == p.quantity name v) then p.parameters
        else p.parameters ++ [p.quantity name v]).map _ =
      if p'.parameters.any (· == p'.quantity name v) then p'.parameters
      else p'.parameters ++ [p'.quantity name v]
    rw [← hf.quantity hname, ← hp.parameters, any_beq_rename,
      apply_ite (List.map (Quantity.rename f)), map_concat_eq rfl rfl]

/-- The symbol of a parameter is renamed to that of the parameter. -/
theorem Mirrors.symbol (h : Mirrors p p') {name : String} (hname : IsPlain name) (v : Option α) :
    Mirrors ((p.register name v).keep (.symbol (p.quantity name v).symbol))
      ((p'.register name v).keep (.symbol (p'.quantity name v).symbol)) :=
  (h.register hname v).keep fun f hf _ => by
    rw [← hf.quantity hname, rename_symbol]
    rfl

/-- The auxiliary of one session is renamed to that of the other. -/
theorem Mirrors.operate {stem : String} {result refreshed result' refreshed' : Expr α → Expr α →
      Expr α} (h : Mirrors p p') (hp : p.IsSound) (hp' : p'.IsSound)
    (hresult : ∀ f, IsRenamed f p p' → ∀ a ts,
      (result a ts).rename f = result' (a.rename f) (ts.rename f))
    (hrefreshed : ∀ f, IsRenamed f p p' → ∀ a ts,
      (refreshed a ts).rename f = refreshed' (a.rename f) (ts.rename f)) :
    Mirrors (p.operate stem result refreshed) (p'.operate stem result' refreshed') := by
  have hgrows := Context.isGrowing_freshSymbol stem p.context
  have hgrows' := Context.isGrowing_freshSymbol stem p'.context
  have hstep : (Context.freshSymbol stem p.context).2.stepNumber =
      (Context.freshSymbol stem p'.context).2.stepNumber := by
    rw [Context.stepNumber_congr hgrows.timestep, Context.stepNumber_congr hgrows'.timestep,
      h.stepNumber]
  refine ⟨h.topology, hstep, ?_, fun f hf => ?_⟩
  · show (p.discretization.auxiliaries ++ [_]).length =
      (p'.discretization.auxiliaries ++ [_]).length
    rw [List.length_append, List.length_append, h.length, List.length_singleton,
      List.length_singleton]
  · have hauxiliaries := hf.auxiliaries
    change (p.discretization.auxiliaries ++ [_]).map _ = p'.discretization.auxiliaries ++ [_]
      at hauxiliaries
    rw [List.map_append] at hauxiliaries
    obtain ⟨hbefore, hlast⟩ := List.append_inj' hauxiliaries rfl
    have ha : f (Context.freshSymbol stem p.context).1 =
        (Context.freshSymbol stem p'.context).1 :=
      congrArg Quantity.symbol (List.singleton_inj.1 hlast)
    have hts : (Context.freshSymbol stem p.context).2.timestepExpr.rename f =
        (Context.freshSymbol stem p'.context).2.timestepExpr :=
      hf.plain.timestepExpr (hgrows.isSound hp.context) (hgrows'.isSound hp'.context) hstep
    have hr := h.isRenamed f ⟨hf.plain.of_grows hgrows hgrows', hbefore⟩
    refine ⟨map_concat_eq hr.results ?_, hr.relations, hr.unknowns, hr.parameters,
      map_concat_eq hr.support ?_⟩
    · rw [hresult f hr, rename_symbol, ha, hts]
    · rw [Equation.rename, hrefreshed f hr, rename_symbol, ha, hts]

/-- What a step that names plain names keeps. -/
theorem Mirrors.step (h : Mirrors p p') (hp : p.IsSound) (hp' : p'.IsSound) {st : Step α}
    (hst : ∀ name ∈ st.names, IsPlain name) : Mirrors (p.step st) (p'.step st) := by
  have hoperand {f : Renaming} (hr : IsRenamed f p p') (o : Operand α) :
      (o.expr p.results).rename f = o.expr p'.results := by
    rw [Operand.rename_expr, hr.results]
  rw [step_eq_change, step_eq_change]
  cases st with
  | potential e =>
    exact (h.addEdge e).intern (isPlain_potential e.name)
  | flow e =>
    exact (h.addEdge e).intern (isPlain_flow e.name)
  | symbol name =>
    exact h.intern (hst name (List.mem_singleton_self name))
  | parameter name =>
    exact h.symbol (hst name (List.mem_singleton_self name)) none
  | constant name v =>
    exact (h.register (hst name (List.mem_singleton_self name)) (some v)).keep
      fun f _ _ => rename_number f v
  | constantSymbol name v =>
    exact h.symbol (hst name (List.mem_singleton_self name)) (some v)
  | timestep =>
    exact h.keep fun f hf _ => hf.plain.timestepExpr hp.context hp'.context h.stepNumber
  | define o =>
    exact h.keep fun f _ hr => hoperand hr o
  | integral o =>
    rw [change, change]
    refine h.operate hp hp' (fun f hr a ts => ?_) (fun f hr a ts => ?_)
    · rw [rename_plus, rename_times, hoperand hr]
    · rw [rename_times, hoperand hr]
  | derivative o =>
    rw [change, change]
    refine h.operate hp hp' (fun f hr a ts => ?_) (fun f hr a ts => ?_) <;>
      rw [rename_over, rename_minus, hoperand hr]
  | relate lhs rhs =>
    exact h.relate fun f hr => by rw [Equation.rename, hoperand hr, hoperand hr]
  | unknown o =>
    exact h.list fun f hr => hoperand hr o

/-- What any number of such steps keep. -/
theorem Mirrors.run (h : Mirrors p p') (hp : p.IsSound) (hp' : p'.IsSound) {steps : List (Step α)}
    (hsteps : ∀ st ∈ steps, ∀ name ∈ st.names, IsPlain name) :
    Mirrors (p.run steps) (p'.run steps) := by
  induction steps generalizing p p' with
  | nil => exact h
  | cons st steps ih =>
    obtain ⟨hst, hrest⟩ := List.forall_mem_cons.1 hsteps
    exact ih (h.step hp hp' hst) (hp.step st) (hp'.step st) hrest

end Progress

/-! ### The renaming -/

namespace Progress

variable {p p' : Progress α} {x x' y y' : Symbol}

/-- The symbols belong together: they have the same plain name, or are auxiliaries at the same
position. -/
inductive Pairs (p p' : Progress α) : Symbol → Symbol → Prop
  | plain {name : String} {x x' : Symbol} (hname : IsPlain name)
      (hx : p.context.lookup name = some x) (hx' : p'.context.lookup name = some x') :
      Pairs p p' x x'
  | auxiliary {i : ℕ} {a a' : Quantity α} (ha : p.discretization.auxiliaries[i]? = some a)
      (ha' : p'.discretization.auxiliaries[i]? = some a') : Pairs p p' a.symbol a'.symbol

theorem Pairs.symm (h : Pairs p p' x x') : Pairs p' p x' x := by
  cases h with
  | plain hname hx hx' => exact .plain hname hx' hx
  | auxiliary ha ha' => exact .auxiliary ha' ha

theorem Pairs.mem (h : Pairs p p' x x') (hp : p.IsSound) : x ∈ p.context.symbols.symbols := by
  cases h with
  | plain _ hx _ => exact (Context.lookup_spec hx).1
  | auxiliary ha _ => exact (hp.auxiliaries _ (List.mem_of_getElem? ha)).1

/-- Auxiliaries are told apart by their symbols. -/
theorem IsSound.position_inj (hp : p.IsSound) {i j : ℕ} {a b : Quantity α}
    (ha : p.discretization.auxiliaries[i]? = some a)
    (hb : p.discretization.auxiliaries[j]? = some b) (h : a.symbol = b.symbol) : i = j := by
  have hnodup : (p.discretization.auxiliaries.map (·.symbol.id)).Nodup :=
    (hp.increasing.map _ fun _ _ hlt => hlt.ne)
  obtain ⟨hi, -⟩ := List.getElem?_eq_some_iff.1 ha
  refine (List.getElem?_inj (by simpa using hi) hnodup).1 ?_
  rw [List.getElem?_map, List.getElem?_map, ha, hb, Option.map_some, Option.map_some, h]

/-- A symbol belongs to one other symbol only. -/
theorem Pairs.unique (hp : p.IsSound) (hx : Pairs p p' x x') (hy : Pairs p p' y y')
    (hid : x.id = y.id) : x = y ∧ x' = y' := by
  obtain rfl := hp.context.isNumbered.eq_of_id_eq (hx.mem hp) (hy.mem hp) hid
  refine ⟨rfl, ?_⟩
  cases hx with
  | @plain name _ _ hname hx hx' =>
    obtain rfl := (Context.lookup_spec hx).2
    generalize hz : x = z at hy
    cases hy with
    | plain _ hy hy' =>
      obtain rfl := (Context.lookup_spec hy).2
      rw [hz] at hx'
      exact Option.some.inj (hx'.symm.trans hy')
    | auxiliary hb _ =>
      rw [hz] at hname
      exact absurd hname (hp.auxiliaries _ (List.mem_of_getElem? hb)).2.1
  | @auxiliary i a a' ha ha' =>
    generalize hz : a.symbol = z at hy
    cases hy with
    | plain hname hy _ =>
      obtain rfl := (Context.lookup_spec hy).2
      rw [← hz] at hname
      exact absurd hname (hp.auxiliaries _ (List.mem_of_getElem? ha)).2.1
    | auxiliary hb hb' =>
      obtain rfl := hp.position_inj ha hb hz
      rw [Option.some.inj (ha'.symm.trans hb')]

/-- Names and positions of auxiliaries pair the symbols off one to one. -/
theorem isPairing_pairs (hp : p.IsSound) (hp' : p'.IsSound) :
    IsPairing (Pairs p p') p'.context.symbols.next where
  unique hx hy hid := hx.unique hp hy hid
  id_eq hx hy hid := by rw [(hx.symm.unique hp' hy.symm hid).2]
  lt_bound hx := hp'.context.isNumbered.lt_next _ (hx.symm.mem hp')

/-- Two sound sessions with equally many auxiliaries have a renaming that takes one to the other. -/
theorem exists_renames (hp : p.IsSound) (hp' : p'.IsSound)
    (hlength : p.discretization.auxiliaries.length = p'.discretization.auxiliaries.length) :
    ∃ f, Renames f p p' ∧
      ∀ x, x.name ∉ p.discretization.auxiliaries.map (·.name) → (f x).name = x.name := by
  obtain ⟨f, hf, hname⟩ := (isPairing_pairs hp hp').exists_renaming
  refine ⟨f, ⟨fun name x x' hplain hx hx' => hf x x' (.plain hplain hx hx'), ?_⟩,
    fun z hz => hname z fun x x' hx hxz => ?_⟩
  · refine List.ext_getElem (by rw [List.length_map, hlength]) fun i hi hi' => ?_
    rw [List.length_map] at hi
    rw [List.getElem_map]
    have ha := List.getElem?_eq_getElem hi
    have ha' := List.getElem?_eq_getElem hi'
    obtain ⟨-, -, hnumber⟩ := hp.auxiliaries _ (List.getElem_mem hi)
    obtain ⟨-, -, hnumber'⟩ := hp'.auxiliaries _ (List.getElem_mem hi')
    exact Quantity.rename_eq f (hf _ _ (.auxiliary ha ha')) (hnumber.trans hnumber'.symm)
  · cases hx with
    | plain _ hx hx' => rw [(Context.lookup_spec hx).2, (Context.lookup_spec hx').2]
    | auxiliary ha _ =>
      exact absurd (List.mem_map.2 ⟨_, List.mem_of_getElem? ha, hxz⟩) hz

end Progress

/-! ### Systems -/

/-- The system with every symbol renamed. -/
def System.rename (f : Renaming) (s : System α) : System α :=
  { s with
    relations := s.relations.map (Equation.rename f)
    potentialLaws := s.potentialLaws.map (Equation.rename f)
    flowLaws := s.flowLaws.map (Equation.rename f)
    unknowns := s.unknowns.map f
    parameters := s.parameters.map (Quantity.rename f)
    support := s.support.map (Equation.rename f)
    auxiliaries := s.auxiliaries.map (Quantity.rename f)
    timestep := s.timestep.rename f }

variable [Scalar α]

/-- The session with the context that its end leaves. -/
def Progress.analyzed (p : Progress α) : Progress α := { p with context := p.finish.2 }

theorem Progress.IsSound.analyzed {p : Progress α} (h : p.IsSound) : p.analyzed.IsSound :=
  h.of_grows (p.topology.isGrowing_analyze p.context) rfl fun _ he => .inl he

/-- The systems of two sessions that mirror each other, with a renaming that takes the context that
is left by one to that left by the other. -/
theorem Progress.Mirrors.finish {p p' : Progress α} {f : Renaming} (h : Mirrors p p')
    (hp : p.IsSound) (hp' : p'.IsSound) (hf : Renames f p.analyzed p'.analyzed) :
    p'.finish.1 = { p.finish.1.rename f with
      timestep := ⟨f p.finish.1.timestep.symbol, p'.finish.1.timestep.number⟩ } := by
  have hgrows := p.topology.isGrowing_analyze p.context
  have hgrows' := p'.topology.isGrowing_analyze p'.context
  have hr := h.isRenamed f (hf.of_grows hgrows hgrows' rfl rfl)
  have ha' : p.topology.IsAnalysis (p'.topology.analyze p'.context).2
      (p'.topology.analyze p'.context).1 := by
    rw [← h.topology]
    exact p.topology.isAnalysis p'.context
  obtain ⟨hpotential, hflow, hdiagnostics⟩ :=
    Context.Translates.isAnalysis hf.plain (p.topology.isAnalysis p.context) ha'
  have hts : f p.finish.2.timestep.symbol = p'.finish.2.timestep.symbol :=
    hf.plain.timestep hp.analyzed.context hp'.analyzed.context
  have htree : p.finish.1.tree = p'.finish.1.tree := by
    show (p.topology.graph.forest.edges.map fun i => (p.topology.edge i).name) =
      p'.topology.graph.forest.edges.map fun i => (p'.topology.edge i).name
    rw [h.topology]
  show System.mk .. = System.mk ..
  rw [System.mk.injEq]
  exact ⟨h.topology.symm, hr.relations.symm, hpotential.symm, hflow.symm, hr.unknowns.symm,
    hr.parameters.symm, hr.support.symm, hf.auxiliaries.symm,
    congrArg (fun x => (⟨x, p'.finish.1.timestep.number⟩ : Quantity α)) hts.symm, htree.symm,
    hdiagnostics.symm⟩

/-- **A synthesis does not depend on what its context was used for.** A script that gives no name
of an auxiliary is synthesized in two contexts that were reached in any way, and use the same
timestep in formulas. A renaming that keeps every name but those of the auxiliaries turns one system
into the other, where it takes each auxiliary to the one at the same position. -/
theorem synthesize_renamed {k k' : Context α} (hk : k.IsReached) (hk' : k'.IsReached)
    (hstep : k.stepNumber = k'.stepNumber) {steps : List (Step α)}
    (hsteps : ∀ st ∈ steps, ∀ name ∈ st.names, IsPlain name) :
    let s := (synthesize (Script.model steps) k).1
    let s' := (synthesize (Script.model steps) k').1
    ∃ f : Renaming, (∀ x, x.name ∉ s.auxiliaries.map (·.name) → (f x).name = x.name) ∧
      s' = { s.rename f with timestep := ⟨f s.timestep.symbol, s'.timestep.number⟩ } := by
  have hstart := Progress.isSound_start hk.isSound
  have hstart' := Progress.isSound_start hk'.isSound
  have hmirrors := (Progress.mirrors_start hstep).run hstart hstart' hsteps
  have hsound := hstart.run steps
  have hsound' := hstart'.run steps
  -- The renaming has to reach as far as the contexts that the analyses leave.
  obtain ⟨f, hf, hname⟩ :=
    Progress.exists_renames hsound.analyzed hsound'.analyzed hmirrors.length
  exact ⟨f, hname, hmirrors.finish hsound hsound' hf⟩

/-- The second context was used for another script, was reset, and has the label of the first
integral interned. -/
theorem synthesize_renamed_after_use :
    let steps : List (Step Rat) := [.flow (.between ⟨"a", false⟩ (.ground "g") "R0"), .symbol "u",
      .integral (.result 0), .derivative (.sum [.result 1, .result 2]),
      .relate (.result 1) (.result 3), .unknown (.result 0)]
    let k := [Context.Operation.setTimestep 2].foldl Context.Operation.run Context.new
    let k' := [.fresh "idt", .synthesize [.symbol "v", .derivative (.result 0)], .reset,
      .symbol "idt0", Context.Operation.setTimestep 2].foldl Context.Operation.run Context.new
    let s := (synthesize (Script.model steps) k).1
    let s' := (synthesize (Script.model steps) k').1
    s.auxiliaries.map (·.name) = ["idt0", "ddt0"] ∧ s'.auxiliaries.map (·.name) = ["idt1", "ddt0"] ∧
      ∃ f : Renaming, (∀ x, x.name ∉ s.auxiliaries.map (·.name) → (f x).name = x.name) ∧
        s' = { s.rename f with timestep := ⟨f s.timestep.symbol, s'.timestep.number⟩ } := by
  intro steps k k' s s'
  have hsteps : ∀ st ∈ steps, ∀ name ∈ st.names, IsPlain name := by
    have hu : IsPlain "u" := isPlain_of_getLast? (c := 'u') (by decide) (by decide)
    simpa [steps, Step.names] using hu
  have hnames : s.auxiliaries.map (·.name) = ["idt0", "ddt0"] := by decide +kernel
  have hnames' : s'.auxiliaries.map (·.name) = ["idt1", "ddt0"] := by decide +kernel
  have hstep : k.stepNumber = k'.stepNumber := by decide +kernel
  have hk : k.IsReached := ⟨_, rfl⟩
  have hk' : k'.IsReached := ⟨_, rfl⟩
  refine ⟨hnames, hnames', ?_⟩
  -- Nothing else is computed.
  clear_value steps k k'
  exact synthesize_renamed hk hk' hstep hsteps

end Kirchhoff
