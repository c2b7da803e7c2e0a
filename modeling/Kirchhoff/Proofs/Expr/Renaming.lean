import Kirchhoff.Proofs.Expr.Built
import Kirchhoff.Quantity

/-!
# Renaming symbols

A `Renaming` replaces symbols by symbols and keeps them apart: two symbols become the same only if
they were. The canonical operations look at symbols only to tell them apart, so it makes no
difference whether operands are renamed or what is built from them (`rename_sum`, `rename_product`,
`rename_power`): both run through the same rounds, and every round commutes with the renaming
(`Natural`).
-/

namespace Kirchhoff

/-- A replacement of symbols by symbols that keeps them apart. -/
structure Renaming where
  toFun : Symbol → Symbol
  faithful (s t : Symbol) : (toFun s == toFun t) = (s == t)

instance : CoeFun Renaming fun _ => Symbol → Symbol := ⟨Renaming.toFun⟩

/-! ### Extending a pairing -/

/-- The relation pairs symbols off one to one, and the second ones have numbers below the bound. -/
structure IsPairing (R : Symbol → Symbol → Prop) (bound : ℕ) : Prop where
  unique {x x' y y' : Symbol} (hx : R x x') (hy : R y y') (hid : x.id = y.id) : x = y ∧ x' = y'
  id_eq {x x' y y' : Symbol} (hx : R x x') (hy : R y y') (hid : x'.id = y'.id) : x.id = y.id
  lt_bound {x x' : Symbol} (hx : R x x') : x'.id < bound

/-- What a symbol becomes when the pairs are extended to all symbols. A number goes with its pair,
or else above the bound; a name goes only with the symbol that is paired. -/
inductive Extension (R : Symbol → Symbol → Prop) (bound : ℕ) (z : Symbol) : Symbol → Prop
  | paired {x x' : Symbol} (hx : R x x') (hid : x.id = z.id) :
      Extension R bound z ⟨x'.id, if x.name = z.name then x'.name else z.name⟩
  | other (hnone : ∀ x x', R x x' → x.id ≠ z.id) : Extension R bound z ⟨z.id + bound, z.name⟩

section

variable {R : Symbol → Symbol → Prop} {bound : ℕ} {s s' t t' x x' z z' : Symbol}

/-- Every symbol has a partner in the extended pairing, its own or a new one. -/
theorem exists_extension (R : Symbol → Symbol → Prop) (bound : ℕ) (z : Symbol) :
    ∃ z', Extension R bound z z' := by
  by_cases hz : ∃ x x', R x x' ∧ x.id = z.id
  · obtain ⟨x, x', hx, hid⟩ := hz
    exact ⟨_, .paired hx hid⟩
  · exact ⟨_, .other fun x x' hx hid => hz ⟨x, x', hx, hid⟩⟩

/-- Numbers that are paired stay below the bound, and all others get above it. -/
theorem IsPairing.id_eq_iff (h : IsPairing R bound) (hs : Extension R bound s s')
    (ht : Extension R bound t t') : s'.id = t'.id ↔ s.id = t.id := by
  cases hs with
  | @paired x x' hx hxs =>
    cases ht with
    | @paired y y' hy hyt =>
      show x'.id = y'.id ↔ s.id = t.id
      rw [← hxs, ← hyt]
      exact ⟨h.id_eq hx hy, fun hid => by rw [(h.unique hx hy hid).2]⟩
    | other hnone =>
      have hlt := h.lt_bound hx
      refine iff_of_false ?_ fun hst => hnone x x' hx (hxs.trans hst)
      show x'.id ≠ t.id + bound
      omega
  | other hnone =>
    cases ht with
    | @paired y y' hy hyt =>
      have hlt := h.lt_bound hy
      refine iff_of_false ?_ fun hst => hnone y y' hy (hyt.trans hst.symm)
      show s.id + bound ≠ y'.id
      omega
    | other => exact Nat.add_right_cancel_iff

/-- A symbol that is paired becomes the one that it is paired with. -/
theorem IsPairing.extension_eq (h : IsPairing R bound) (hz : Extension R bound x z')
    (hx : R x x') : z' = x' := by
  cases hz with
  | paired hy hid =>
    obtain ⟨rfl, rfl⟩ := h.unique hy hx hid
    rw [if_pos rfl]
  | other hnone => exact absurd rfl (hnone x x' hx)

/-- A name changes only with a pair of different names. -/
theorem Extension.name_eq (hz : Extension R bound z z')
    (h : ∀ x x', R x x' → x.name = z.name → x'.name = x.name) : z'.name = z.name := by
  cases hz with
  | @paired x x' hx hid =>
    show (if x.name = z.name then x'.name else z.name) = z.name
    split
    · rename_i hname
      exact (h x x' hx hname).trans hname
    · rfl
  | other => rfl

/-- Symbols that are paired off can be renamed accordingly. -/
theorem IsPairing.exists_renaming (h : IsPairing R bound) :
    ∃ f : Renaming, (∀ x x', R x x' → f x = x') ∧
      ∀ z, (∀ x x', R x x' → x.name = z.name → x'.name = x.name) → (f z).name = z.name := by
  choose g hg using exists_extension R bound
  refine ⟨⟨g, fun s t => ?_⟩, fun x x' hx => h.extension_eq (hg x) hx, fun z => (hg z).name_eq⟩
  rw [Bool.eq_iff_iff, Symbol.beq_iff, Symbol.beq_iff, h.id_eq_iff (hg s) (hg t)]

end

namespace Expr

variable {α : Type}

mutual

/-- The expression with every symbol renamed. -/
def rename (f : Renaming) : Expr α → Expr α
  | .number v => .number v
  | .symbol s => .symbol (f s)
  | .add ts => .add (renameAll f ts)
  | .mul fs => .mul (renameAll f fs)
  | .pow b x => .pow (rename f b) (rename f x)
  | .call g args => .call g (renameAll f args)

/-- The expressions with every symbol renamed. -/
def renameAll (f : Renaming) : List (Expr α) → List (Expr α)
  | [] => []
  | e :: es => rename f e :: renameAll f es

end

variable (f : Renaming)

@[simp] theorem renameAll_eq_map (es : List (Expr α)) : renameAll f es = es.map (rename f) := by
  induction es with
  | nil => rfl
  | cons e es ih => rw [renameAll, ih, List.map_cons]

@[simp] theorem rename_number (v : α) : (Expr.number v).rename f = .number v := rfl

/-- A symbol is the only node that a renaming changes. -/
@[simp] theorem rename_symbol (s : Symbol) : (Expr.symbol s : Expr α).rename f = .symbol (f s) :=
  rfl

@[simp] theorem rename_add (ts : List (Expr α)) :
    (Expr.add ts).rename f = .add (ts.map (rename f)) := by
  rw [rename, renameAll_eq_map]

@[simp] theorem rename_mul (fs : List (Expr α)) :
    (Expr.mul fs).rename f = .mul (fs.map (rename f)) := by
  rw [rename, renameAll_eq_map]

@[simp] theorem rename_pow (b x : Expr α) :
    (Expr.pow b x).rename f = .pow (b.rename f) (x.rename f) := rfl

@[simp] theorem rename_call (g : String) (args : List (Expr α)) :
    (Expr.call g args).rename f = .call g (args.map (rename f)) := by
  rw [rename, renameAll_eq_map]

/-! ### Looking into an expression -/

mutual

/-- A renamed expression has as many nodes. -/
theorem size_rename : ∀ e : Expr α, (e.rename f).size = e.size
  | .number v => rfl
  | .symbol s => rfl
  | .add ts => by simp only [rename_add, size, sizeAll_rename ts]
  | .mul fs => by simp only [rename_mul, size, sizeAll_rename fs]
  | .pow b x => by simp only [rename_pow, size, size_rename b, size_rename x]
  | .call g args => by simp only [rename_call, size, sizeAll_rename args]

theorem sizeAll_rename : ∀ es : List (Expr α), sizeAll (es.map (rename f)) = sizeAll es
  | [] => rfl
  | e :: es => by simp only [List.map_cons, sizeAll, size_rename e, sizeAll_rename es]

end

section

variable [BEq α]

mutual

/-- Renamed trees are equal when the trees are. -/
theorem beq_rename : ∀ d e : Expr α, beq (d.rename f) (e.rename f) = beq d e
  | .number x, e => by cases e <;> simp [beq]
  | .symbol s, e => by cases e <;> simp [beq, f.faithful]
  | .add xs, e => by
    cases e with
    | add ys => simpa [beq] using beqAll_rename xs ys
    | _ => simp [beq]
  | .mul xs, e => by
    cases e with
    | mul ys => simpa [beq] using beqAll_rename xs ys
    | _ => simp [beq]
  | .pow b x, e => by
    cases e with
    | pow c y => simp [beq, beq_rename b c, beq_rename x y]
    | _ => simp [beq]
  | .call g xs, e => by
    cases e with
    | call h ys => simp [beq, beqAll_rename xs ys]
    | _ => simp [beq]

theorem beqAll_rename :
    ∀ ds es : List (Expr α), beqAll (ds.map (rename f)) (es.map (rename f)) = beqAll ds es
  | [], es => by cases es <;> rfl
  | d :: ds, es => by
    cases es with
    | nil => rfl
    | cons e es => simp only [List.map_cons, beqAll, beq_rename d e, beqAll_rename ds es]

end

/-- Renamed expressions are equal exactly when the expressions were. -/
theorem rename_beq_rename (d e : Expr α) : (d.rename f == e.rename f) = (d == e) :=
  beq_rename f d e

end

variable [Scalar α]

/-! ### Collecting and writing down -/

/-- An entry is found under a renamed key where it was found under the key. -/
theorem insertWith_map {β γ : Type} (combine : β → β → β) (combine' : γ → γ → γ) {g : β → γ}
    (hg : ∀ v w, g (combine v w) = combine' (g v) (g w)) (key : Expr α) (value : β)
    (entries : List (Expr α × β)) :
    insertWith combine' (key.rename f) (g value) (entries.map (Prod.map (rename f) g)) =
      (insertWith combine key value entries).map (Prod.map (rename f) g) := by
  induction entries with
  | nil => rfl
  | cons p entries ih =>
    obtain ⟨k, v⟩ := p
    simp only [List.map_cons, Prod.map_apply, insertWith, rename_beq_rename]
    split
    · simp [hg]
    · simp [ih]

/-- A coefficient has no names. -/
theorem splitCoefficient_rename (e : Expr α) :
    (e.rename f).splitCoefficient = Prod.map id (rename f) e.splitCoefficient := by
  cases e with
  | mul fs =>
    match fs with
    | [] => rfl
    | [g] => cases g <;> simp [splitCoefficient]
    | [g, h] => cases g <;> simp [splitCoefficient]
    | g :: h :: h' :: fs => cases g <;> simp [splitCoefficient]
  | _ => simp [splitCoefficient]

/-- The collected sum with every symbol renamed. -/
def Terms.rename (s : Terms α) : Terms α := ⟨s.constant, s.parts.map (Prod.map (Expr.rename f) id)⟩

/-- The collected product with every symbol renamed. -/
def Factors.rename (s : Factors α) : Factors α :=
  ⟨s.coefficient, s.powers.map (Prod.map (Expr.rename f) (Expr.rename f))⟩

theorem ofTerms_rename (ts : List (Expr α)) :
    ofTerms (ts.map (rename f)) = (ofTerms ts).rename f := by
  match ts with
  | [] | [_] | _ :: _ :: _ => simp [ofTerms]

theorem ofFactors_rename (c : α) (fs : List (Expr α)) :
    ofFactors c (fs.map (rename f)) = (ofFactors c fs).rename f := by
  match fs with
  | [] => rfl
  | [g] => by_cases hc : (c == 1) = true <;> simp [ofFactors, hc]
  | g :: h :: fs => by_cases hc : (c == 1) = true <;> simp [ofFactors, hc]

theorem appendFactor_rename (acc : α × List (Expr α)) (g : Expr α) :
    appendFactor (Prod.map id (List.map (rename f)) acc) (g.rename f) =
      Prod.map id (List.map (rename f)) (appendFactor acc g) := by
  cases g <;> simp [appendFactor]

/-- Factors are spliced together alike before and after a renaming. -/
theorem foldl_appendFactor_rename (acc : α × List (Expr α)) (gs : List (Expr α)) :
    (gs.map (rename f)).foldl appendFactor (Prod.map id (List.map (rename f)) acc) =
      Prod.map id (List.map (rename f)) (gs.foldl appendFactor acc) := by
  induction gs generalizing acc with
  | nil => rfl
  | cons g gs ih => rw [List.map_cons, List.foldl_cons, List.foldl_cons, appendFactor_rename, ih]

/-! ### Rounds -/

section

variable {f} {sumExponents : List (Expr α) → Expr α} {n : ℕ}

/-- Renaming commutes with the sum of two exponents. -/
def CommutesWith (f : Renaming) (sumExponents : List (Expr α) → Expr α) : Prop :=
  ∀ x y, sumExponents [x.rename f, y.rename f] = (sumExponents [x, y]).rename f

/-- A renamed factor is merged with the renamed factor of the same base. -/
theorem insert_rename (hS : CommutesWith f sumExponents) (s : Factors α) (b x : Expr α) :
    (s.rename f).insert sumExponents (b.rename f) (x.rename f) =
      (s.insert sumExponents b x).rename f := by
  have hpowers := insertWith_map f (g := rename f) (fun x y => sumExponents [x, y])
    (fun x y => sumExponents [x, y]) (fun x y => (hS x y).symm) b x s.powers
  simp only [Factors.insert, Factors.rename, hpowers]

mutual

/-- What is collected of a renamed factor is what was collected of it, renamed. -/
theorem collect_rename (hS : CommutesWith f sumExponents) :
    ∀ (g : Expr α) (s : Factors α), Factors.collect sumExponents (s.rename f) (g.rename f) =
      (Factors.collect sumExponents s g).rename f
  | .mul gs, s => by
    simpa [Factors.collect] using collectAll_rename hS gs s
  | .number v, s => rfl
  | .pow b x, s => insert_rename hS s b x
  | .symbol t, s => insert_rename hS s (.symbol t) (.number 1)
  | .add ts, s => by
    simpa [Factors.collect] using insert_rename hS s (.add ts) (.number 1)
  | .call g args, s => by
    simpa [Factors.collect] using insert_rename hS s (.call g args) (.number 1)

theorem collectAll_rename (hS : CommutesWith f sumExponents) :
    ∀ (gs : List (Expr α)) (s : Factors α),
      Factors.collectAll sumExponents (s.rename f) (gs.map (rename f)) =
        (Factors.collectAll sumExponents s gs).rename f
  | [], s => rfl
  | g :: gs, s => by
    simp only [List.map_cons, Factors.collectAll, collect_rename hS g s, collectAll_rename hS gs]

end

/-- The operations within a budget commute with the renaming. -/
structure Natural (f : Renaming) (sumExponents : List (Expr α) → Expr α) (n : ℕ) : Prop where
  collectTerm (s : Terms α) (t : Expr α) :
    collectTerm? sumExponents n (s.rename f) (t.rename f) =
      (collectTerm? sumExponents n s t).map (Terms.rename f)
  sum (ts : List (Expr α)) :
    sum? sumExponents n (ts.map (rename f)) = (sum? sumExponents n ts).map (rename f)
  product (fs : List (Expr α)) :
    product? sumExponents n (fs.map (rename f)) = (product? sumExponents n fs).map (rename f)
  power (b x : Expr α) :
    power? sumExponents n (b.rename f) (x.rename f) = (power? sumExponents n b x).map (rename f)

theorem Natural.scaled (h : Natural f sumExponents n) (c : α) (t : Expr α) :
    product? sumExponents n [.number c, t.rename f] =
      (product? sumExponents n [.number c, t]).map (rename f) :=
  h.product [.number c, t]

theorem Natural.collectScaled (h : Natural f sumExponents n) (c : α) (s : Terms α) (t : Expr α) :
    collectScaled? sumExponents n c (s.rename f) (t.rename f) =
      (collectScaled? sumExponents n c s t).map (Terms.rename f) := by
  simp only [collectScaled?, h.scaled]
  cases product? sumExponents n [.number c, t] with
  | none => rfl
  | some e => exact h.collectTerm s e

theorem Natural.collectPart (h : Natural f sumExponents n) (s : Terms α) (c : α) (part : Expr α) :
    collectPart? sumExponents n (s.rename f) c (part.rename f) =
      (collectPart? sumExponents n s c part).map (Terms.rename f) := by
  have hinsert (e : Expr α) :=
    insertWith_map f (g := id) (· + ·) (· + ·) (fun _ _ => rfl) e c s.parts
  cases part with
  | add ts =>
    rw [rename_add]
    exact foldlM_map_eq (h.collectScaled c) ts s
  | mul fs => simpa [collectPart?, Terms.rename] using hinsert (.mul fs)
  | call g args => simpa [collectPart?, Terms.rename] using hinsert (.call g args)
  | number v => simpa [collectPart?, Terms.rename] using hinsert (.number v)
  | symbol t => simpa [collectPart?, Terms.rename] using hinsert (.symbol t)
  | pow b x => simpa [collectPart?, Terms.rename] using hinsert (.pow b x)

/-- A renamed term is collected as the term was. -/
theorem Natural.collectTerm_succ (h : Natural f sumExponents n) (s : Terms α) (t : Expr α) :
    collectTerm? sumExponents (n + 1) (s.rename f) (t.rename f) =
      (collectTerm? sumExponents (n + 1) s t).map (Terms.rename f) := by
  have hpart (hadd : ∀ ts, t ≠ .add ts) (hadd' : ∀ ts, t.rename f ≠ .add ts)
      (hnumber : t.number? = none) (hnumber' : (t.rename f).number? = none) :
      collectTerm? sumExponents (n + 1) (s.rename f) (t.rename f) =
        (collectTerm? sumExponents (n + 1) s t).map (Terms.rename f) := by
    rw [collectTerm?_eq_collectPart? hadd hnumber, collectTerm?_eq_collectPart? hadd' hnumber',
      splitCoefficient_rename]
    exact h.collectPart s t.splitCoefficient.1 t.splitCoefficient.2
  cases t with
  | add ts =>
    rw [rename_add]
    exact foldlM_map_eq h.collectTerm ts s
  | number v => rfl
  | symbol u => exact hpart (by simp) (by simp) rfl rfl
  | mul fs => exact hpart (by simp) (by simp) rfl (by simp [number?])
  | pow b x => exact hpart (by simp) (by simp) rfl rfl
  | call g args => exact hpart (by simp) (by simp) rfl (by simp [number?])

theorem Natural.written (h : Natural f sumExponents n) (parts : List (Expr α × α)) :
    ((parts.map (Prod.map (rename f) id)).filter (·.2 != 0)).mapM (fun p =>
        if p.2 == 1 then some p.1 else product? sumExponents n [.number p.2, p.1]) =
      ((parts.filter (·.2 != 0)).mapM fun p =>
        if p.2 == 1 then some p.1 else product? sumExponents n [.number p.2, p.1]).map
        (List.map (rename f)) := by
  rw [List.filter_map]
  refine mapM_map_eq (fun p => ?_) _
  by_cases hp : (p.2 == 1) = true
  · simp [hp]
  · simpa [hp] using h.scaled p.2 p.1

/-- A sum of one budget more commutes with a renaming if products below it do. -/
theorem Natural.sum_succ (h : Natural f sumExponents n) (ts : List (Expr α)) :
    sum? sumExponents (n + 1) (ts.map (rename f)) =
      (sum? sumExponents (n + 1) ts).map (rename f) := by
  have hterms : (ts.map (rename f)).foldlM (collectTerm? sumExponents n) Terms.empty =
      (ts.foldlM (collectTerm? sumExponents n) Terms.empty).map (Terms.rename f) :=
    foldlM_map_eq h.collectTerm ts Terms.empty
  rw [sum?, sum?, hterms]
  cases ts.foldlM (collectTerm? sumExponents n) Terms.empty with
  | none => rfl
  | some s =>
    have hparts := h.written s.parts
    simp only [Option.map_some, bind, Option.bind_some, Terms.rename, hparts]
    cases (s.parts.filter (·.2 != 0)).mapM fun p =>
        if p.2 == 1 then some p.1 else product? sumExponents n [.number p.2, p.1] with
    | none => rfl
    | some parts =>
      simp only [Option.map_some, Option.bind_some, pure, Option.some.injEq]
      rw [← ofTerms_rename]
      split <;> simp

omit [Scalar α] in
/-- Only a sum is renamed to a sum. -/
theorem exists_of_map_rename_eq_add {gs us : List (Expr α)} (h : gs.map (rename f) = [.add us]) :
    ∃ ts, gs = [.add ts] := by
  obtain ⟨g, rfl, hg⟩ := List.map_eq_singleton_iff.1 h
  cases g with
  | add ts => exact ⟨ts, rfl⟩
  | _ => simp at hg

theorem Natural.finish (h : Natural f sumExponents n) (c : α) (gs : List (Expr α)) :
    finish? sumExponents n c (gs.map (rename f)) =
      (finish? sumExponents n c gs).map (rename f) := by
  by_cases hadd : ∃ ts, gs = [.add ts]
  · obtain ⟨ts, rfl⟩ := hadd
    simp only [List.map_cons, List.map_nil, rename_add, finish?]
    split
    · simp
    · have hscaled :
          (ts.map (rename f)).mapM (fun t => product? sumExponents n [.number c, t]) =
            (ts.mapM fun t => product? sumExponents n [.number c, t]).map (List.map (rename f)) :=
        mapM_map_eq (φ := rename f) (fun t => h.scaled c t) ts
      rw [hscaled]
      cases ts.mapM fun t => product? sumExponents n [.number c, t] with
      | none => rfl
      | some us => exact h.sum us
  · rw [finish?_eq_ofFactors fun ts hts => hadd ⟨ts, hts⟩,
      finish?_eq_ofFactors fun ts hts => hadd (exists_of_map_rename_eq_add hts), ofFactors_rename,
      Option.map_some]

theorem Natural.raised (h : Natural f sumExponents n) (powers : List (Expr α × Expr α)) :
    (powers.map (Prod.map (rename f) (rename f))).mapM
        (fun p => power? sumExponents n p.1 p.2) =
      (powers.mapM fun p => power? sumExponents n p.1 p.2).map (List.map (rename f)) :=
  mapM_map_eq (fun p => h.power p.1 p.2) powers

/-- A product of one budget more commutes with a renaming if powers below it do. -/
theorem Natural.product_succ (hS : CommutesWith f sumExponents) (h : Natural f sumExponents n)
    (fs : List (Expr α)) :
    product? sumExponents (n + 1) (fs.map (rename f)) =
      (product? sumExponents (n + 1) fs).map (rename f) := by
  have hcollect := collectAll_rename hS fs Factors.empty
  have hempty : (Factors.empty : Factors α).rename f = Factors.empty := rfl
  rw [hempty] at hcollect
  rw [product?_eq_finish?, product?_eq_finish?, hcollect]
  generalize Factors.collectAll sumExponents Factors.empty fs = p
  simp only [Factors.rename, h.raised]
  by_cases hzero : (p.coefficient == 0) = true
  · simp [hzero]
  · simp only [hzero, Bool.false_eq_true, if_false]
    cases p.powers.mapM fun q => power? sumExponents n q.1 q.2 with
    | none => rfl
    | some raised =>
      have hfold := foldl_appendFactor_rename f (p.coefficient, []) raised
      simp only [Prod.map_apply, id_eq, List.map_nil] at hfold
      simp only [Option.map_some, Option.bind_some, hfold, Prod.map_fst, Prod.map_snd, id_eq,
        h.finish]
      split <;> rfl

theorem Natural.power_succ (h : Natural f sumExponents n) (b x : Expr α) :
    power? sumExponents (n + 1) (b.rename f) (x.rename f) =
      (power? sumExponents (n + 1) b x).map (rename f) := by
  cases x with
  | number v =>
    simp only [rename_number, power?]
    split
    · rfl
    · split
      · rfl
      · cases b with
        | number u =>
          simp only [rename_number, ofNumberPower, Option.map_some]
          split <;> rfl
        | symbol s => rfl
        | add ts => simp
        | call g args => simp
        | mul fs =>
          simp only [rename_mul]
          split
          · have hfactors :
                (fs.map (rename f)).mapM (fun g => power? sumExponents n g (.number v)) =
                  (fs.mapM fun g => power? sumExponents n g (.number v)).map
                    (List.map (rename f)) :=
              mapM_map_eq (φ := rename f) (fun g => h.power g (.number v)) fs
            rw [hfactors]
            cases fs.mapM fun g => power? sumExponents n g (.number v) with
            | none => rfl
            | some gs => exact h.product gs
          · simp
        | pow c y =>
          cases y with
          | number u =>
            simp only [rename_pow, rename_number]
            split
            · exact h.power c (.number (u * v))
            · rfl
          | _ => simp
  | _ => cases b <;> simp [power?, apply_ite (rename f)]

end

/-- Every operation commutes with a renaming whatever its budget, by induction on it. -/
theorem natural {sumExponents : List (Expr α) → Expr α} (hS : CommutesWith f sumExponents) (n : ℕ) :
    Natural f sumExponents n := by
  induction n with
  | zero => constructor <;> intros <;> rfl
  | succ n h => exact ⟨h.collectTerm_succ, h.sum_succ, h.product_succ hS, h.power_succ⟩

/-! ### All floors -/

theorem sumOn_rename (floors : ℕ) (ts : List (Expr α)) :
    sumOn floors (ts.map (rename f)) = (sumOn floors ts).rename f := by
  induction floors generalizing ts with
  | zero => simp [sumOn]
  | succ floors ih =>
    have hcommutes : CommutesWith f (sumOn floors : List (Expr α) → Expr α) :=
      fun x y => ih [x, y]
    have hnatural := natural f hcommutes (budget (sizeAll ts))
    rw [sumOn, sumOn, sizeAll_rename, hnatural.sum]
    cases sum? (sumOn floors) (budget (sizeAll ts)) ts <;> simp

/-- The sums of exponents on the floor below commute with a renaming. -/
theorem commutesWith_sumOn (floors : ℕ) :
    CommutesWith f (sumOn floors : List (Expr α) → Expr α) :=
  fun x y => sumOn_rename f floors [x, y]

/-- A canonical sum is renamed term by term. -/
theorem rename_sum (ts : List (Expr α)) : (sum ts).rename f = sum (ts.map (rename f)) := by
  rw [sum, sum, sizeAll_rename, sumOn_rename]

/-- A canonical product is renamed factor by factor. -/
theorem rename_product (fs : List (Expr α)) :
    (product fs).rename f = product (fs.map (rename f)) := by
  have hnatural := natural f (commutesWith_sumOn (α := α) f (sizeAll fs)) (budget (sizeAll fs))
  rw [product, product, sizeAll_rename, hnatural.product]
  cases product? (sumOn (sizeAll fs)) (budget (sizeAll fs)) fs <;> simp

/-- A canonical power is renamed in its base and its exponent. -/
theorem rename_power (b x : Expr α) : (power b x).rename f = power (b.rename f) (x.rename f) := by
  have hnatural := natural f (commutesWith_sumOn (α := α) f (size b + size x))
    (budget (size b + size x))
  rw [power, power, size_rename, size_rename, hnatural.power]
  cases power? (sumOn (size b + size x)) (budget (size b + size x)) b x <;> simp

/-! ### The operations of arithmetic -/

section

variable (a b : Expr α)

theorem rename_plus : (a + b).rename f = a.rename f + b.rename f := rename_sum f [a, b]

theorem rename_times : (a * b).rename f = a.rename f * b.rename f := rename_product f [a, b]

theorem rename_negate : (-a).rename f = -a.rename f := rename_product f [.number (-1), a]

theorem rename_minus : (a - b).rename f = a.rename f - b.rename f :=
  (rename_sum f [a, -b]).trans (by rw [List.map_cons, List.map_cons, rename_negate]; rfl)

theorem rename_over : (a / b).rename f = a.rename f / b.rename f :=
  (rename_product f [a, power b (.number (-1))]).trans
    (by rw [List.map_cons, List.map_cons, rename_power]; rfl)

end

/-! ### Calls of functions -/

section

omit [Scalar α]

/-- A renamed expression calls the same functions. -/
theorem functions_rename (e : Expr α) : (e.rename f).functions = e.functions := by
  induction e with
  | number v => rfl
  | symbol s => rfl
  | add ts ih =>
    rw [rename_add, functions_add, functions_add, List.flatMap_map]
    exact List.flatMap_congr ih
  | mul fs ih =>
    rw [rename_mul, functions_mul, functions_mul, List.flatMap_map]
    exact List.flatMap_congr ih
  | pow b x hb hx => rw [rename_pow, functions_pow, functions_pow, hb, hx]
  | call g args ih =>
    rw [rename_call, functions_call, functions_call, List.flatMap_map, List.flatMap_congr ih]

end

end Expr

/-! ### Equations and quantities -/

section

variable {α : Type} (f : Renaming)

/-- The equation with every symbol renamed. -/
def Equation.rename (q : Equation α) : Equation α := ⟨q.lhs.rename f, q.rhs.rename f⟩

/-- The quantity with its symbol renamed. -/
def Quantity.rename (q : Quantity α) : Quantity α := { q with symbol := f q.symbol }

theorem Equation.unsupported_eq (q : Equation α) :
    q.unsupported = q.lhs.functions ++ q.rhs.functions := by
  simp [Equation.unsupported, Equation.walk, List.filterMap_cons, Event.function?, Expr.functions]

/-- A renaming changes no calls, so an equation is accepted or dropped as before. -/
theorem Equation.isSupported_rename (q : Equation α) :
    (q.rename f).isSupported = q.isSupported := by
  simp only [Equation.isSupported, Equation.unsupported_eq, Equation.rename, Expr.functions_rename]

/-- A quantity is renamed by its symbol; a number stays. -/
theorem Quantity.rename_eq {p q : Quantity α} (hsymbol : f p.symbol = q.symbol)
    (hnumber : p.number = q.number) : p.rename f = q := by
  rw [Quantity.rename, hsymbol, hnumber]

theorem Quantity.beq_rename (p q : Quantity α) : (p.rename f == q.rename f) = (p == q) :=
  f.faithful p.symbol q.symbol

theorem Renaming.contains_map (us : List Symbol) (u : Symbol) :
    (us.map f).contains (f u) = us.contains u := by
  induction us with
  | nil => rfl
  | cons v us ih => simp only [List.map_cons, List.contains_cons, f.faithful, ih]

end

end Kirchhoff
