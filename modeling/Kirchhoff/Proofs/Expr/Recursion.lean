import Kirchhoff.Proofs.Expr.Shape

/-!
# The recursion of the canonical operations ends

Sums, products and powers in canonical form call each other. `Nested` has this recursion as it is,
without floors of exponents and without a budget; its functions have no result when the calls nest
deeper than a given depth. All calls return: from some depth on, the result is there and stays
(`Returns`). For sums, products and powers it is that of the canonical operations
(`Nested.every_call_returns`).

On one floor of exponents the budget bounds the rounds. That there is a next floor whenever
exponents are added is what `Fits` counts: an exponent has fewer floors than its power, and results
have no more than their operands (`KeepsFloors`). The recursion therefore follows the operations
within a budget, round by round and floor by floor (`Follows`).

Nothing is assumed of the arithmetic of numbers here.
-/

namespace Kirchhoff

/-! ### Calls that return -/

/-- From some depth of nesting on, the call has the result. -/
def Returns {β : Type} (call : ℕ → Option β) (r : β) : Prop :=
  ∃ n, ∀ depth ≥ n, call depth = some r

namespace Returns

variable {β γ σ : Type} {bs : List β} {cs : List γ}

/-- A call that gives its result at every depth returns it. -/
theorem of_eq {call : ℕ → Option β} {r : β} (h : ∀ depth, call depth = some r) : Returns call r :=
  ⟨0, fun depth _ => h depth⟩

/-- A call needs one level more than the calls that it makes. -/
theorem succ {call : ℕ → Option β} {r : β} (h : Returns (fun depth => call (depth + 1)) r) :
    Returns call r := by
  obtain ⟨n, h⟩ := h
  refine ⟨n + 1, fun depth hdepth => ?_⟩
  obtain _ | depth := depth
  · omega
  · exact h depth (by omega)

/-- A call that goes on with the result of another returns, at the larger of the two depths. -/
theorem bind {x : ℕ → Option β} {f : ℕ → β → Option γ} {b : β} {c : γ} (hx : Returns x b)
    (hf : Returns (fun depth => f depth b) c) : Returns (fun depth => x depth >>= f depth) c := by
  obtain ⟨n, hx⟩ := hx
  obtain ⟨k, hf⟩ := hf
  refine ⟨max n k, fun depth hdepth => ?_⟩
  dsimp only
  rw [hx depth (le_of_max_le_left hdepth)]
  exact hf depth (le_of_max_le_right hdepth)

/-- Calls for every member of a list return together. -/
theorem mapM {f : ℕ → β → Option γ}
    (h : List.Forall₂ (fun b c => Returns (fun depth => f depth b) c) bs cs) :
    Returns (fun depth => bs.mapM (f depth)) cs := by
  induction h with
  | nil => exact of_eq fun _ => rfl
  | cons hb _ ih =>
    simp only [List.mapM_cons]
    exact hb.bind (ih.bind (of_eq fun _ => rfl))

/-- A fold returns what another one gives whose steps it follows. -/
theorem foldlM {f : ℕ → σ → β → Option σ} {g : σ → β → Option σ} {s s' : σ}
    (hf : ∀ b ∈ bs, ∀ s s', g s b = some s' → Returns (fun depth => f depth s b) s')
    (h : bs.foldlM g s = some s') : Returns (fun depth => bs.foldlM (f depth) s) s' := by
  induction bs generalizing s with
  | nil => exact of_eq fun _ => h
  | cons b bs ih =>
    obtain ⟨hb, hbs⟩ := List.forall_mem_cons.1 hf
    simp only [List.foldlM_cons] at h ⊢
    obtain ⟨u, hu, h⟩ := Option.bind_eq_some_iff.1 h
    exact (hb s u hu).bind (ih hbs h)

theorem exists_foldlM {f : ℕ → σ → β → Option σ} {s : σ}
    (hf : ∀ b ∈ bs, ∀ s, ∃ s', Returns (fun depth => f depth s b) s') :
    ∃ s', Returns (fun depth => bs.foldlM (f depth) s) s' := by
  induction bs generalizing s with
  | nil => exact ⟨s, of_eq fun _ => rfl⟩
  | cons b bs ih =>
    obtain ⟨hb, hbs⟩ := List.forall_mem_cons.1 hf
    obtain ⟨u, hu⟩ := hb s
    obtain ⟨s', hs'⟩ := ih hbs
    simp only [List.foldlM_cons]
    exact ⟨s', hu.bind hs'⟩

end Returns

namespace Expr

variable {α : Type}

/-! ### The recursion -/

namespace Nested

variable [Scalar α]

/-- Multiplies a power onto the powers that are collected. The exponents of equal bases are
added. -/
def insertPower (add : List (Expr α) → Option (Expr α)) (b x : Expr α) :
    List (Expr α × Expr α) → Option (List (Expr α × Expr α))
  | [] => some [(b, x)]
  | (k, y) :: rest =>
    if k == b then do return (k, ← add [y, x]) :: rest
    else do return (k, y) :: (← insertPower add b x rest)

mutual

/-- Collects one term of a sum. -/
def collectTerm : ℕ → Terms α → Expr α → Option (Terms α)
  | 0, _, _ => none
  | n + 1, s, .add ts => ts.foldlM (collectTerm n) s
  | _ + 1, s, .number v => some { s with constant := s.constant + v }
  | n + 1, s, t => collectPart n s t.splitCoefficient.1 t.splitCoefficient.2

/-- Collects what stands behind the coefficient of a term: one part, or a sum, whose terms are
multiplied by the coefficient first. -/
def collectPart : ℕ → Terms α → α → Expr α → Option (Terms α)
  | 0, _, _, _ => none
  | n + 1, s, c, .add ts => ts.foldlM (fun s t => do collectTerm n s (← product n [.number c, t])) s
  | _ + 1, s, c, part => some { s with parts := insertWith (· + ·) part c s.parts }

/-- The canonical sum of some terms. -/
def sum : ℕ → List (Expr α) → Option (Expr α)
  | 0, _ => none
  | n + 1, ts => do
    let s ← ts.foldlM (collectTerm n) Terms.empty
    let parts ← (s.parts.filter (·.2 != 0)).mapM fun p =>
      if p.2 == 1 then some p.1 else product n [.number p.2, p.1]
    return ofTerms (if s.constant != 0 then parts ++ [.number s.constant] else parts)

/-- Multiplies a power onto a product. -/
def pushBase : ℕ → Factors α → Expr α → Expr α → Option (Factors α)
  | 0, _, _, _ => none
  | n + 1, p, b, x => do return { p with powers := ← insertPower (sum n) b x p.powers }

/-- Multiplies a factor onto a product. -/
def collectFactor : ℕ → Factors α → Expr α → Option (Factors α)
  | 0, _, _ => none
  | n + 1, p, .mul gs => gs.foldlM (collectFactor n) p
  | _ + 1, p, .number v => some { p with coefficient := p.coefficient * v }
  | n + 1, p, .pow b x => pushBase n p b x
  | n + 1, p, f => pushBase n p f (.number 1)

/-- The canonical product of some factors. -/
def product : ℕ → List (Expr α) → Option (Expr α)
  | 0, _ => none
  | n + 1, fs => do
    let p ← fs.foldlM (collectFactor n) Factors.empty
    if p.coefficient == 0 then return .number 0
    let raised ← p.powers.mapM fun q => power n q.1 q.2
    let out := raised.foldl appendFactor (p.coefficient, [])
    if out.1 == 0 then return .number 0
    finish n out.1 out.2

/-- The product of a coefficient and factors, where a single sum takes the coefficient in. -/
def finish : ℕ → α → List (Expr α) → Option (Expr α)
  | 0, _, _ => none
  | n + 1, c, [.add ts] =>
    if c == 1 then some (.add ts)
    else do sum n (← ts.mapM fun t => product n [.number c, t])
  | _ + 1, c, gs => some (ofFactors c gs)

/-- The canonical power of a base and an exponent. -/
def power : ℕ → Expr α → Expr α → Option (Expr α)
  | 0, _, _ => none
  | n + 1, b, .number e =>
    if e == 0 then some (.number 1)
    else if e == 1 then some b
    else match b with
      | .number v => some (ofNumberPower v e)
      | .pow c (.number f) =>
        if Scalar.isInteger e then power n c (.number (f * e)) else some (.pow b (.number e))
      | .mul fs =>
        if Scalar.isInteger e then do product n (← fs.mapM fun f => power n f (.number e))
        else some (.pow b (.number e))
      | b => some (.pow b (.number e))
  | _ + 1, .number v, x => some (if v == 1 then .number 1 else .pow (.number v) x)
  | _ + 1, b, x => some (.pow b x)

end

end Nested

/-! ### Floors of exponents -/

/-- The expression has fewer floors of exponents than the bound. Without a floor, it is a number.
The operations do not look into the arguments of a call. -/
inductive Fits : ℕ → Expr α → Prop
  | number {m : ℕ} (v : α) : Fits m (.number v)
  | symbol {m : ℕ} (hm : 0 < m) (s : Symbol) : Fits m (.symbol s)
  | add {m : ℕ} {ts : List (Expr α)} (hm : 0 < m) (h : ∀ t ∈ ts, Fits m t) : Fits m (.add ts)
  | mul {m : ℕ} {fs : List (Expr α)} (hm : 0 < m) (h : ∀ f ∈ fs, Fits m f) : Fits m (.mul fs)
  | pow {m k : ℕ} {b x : Expr α} (hk : k < m) (hb : Fits m b) (hx : Fits k x) : Fits m (.pow b x)
  | call {m : ℕ} (hm : 0 < m) (f : String) (args : List (Expr α)) : Fits m (.call f args)

/-- The expression has fewer floors of exponents than one below the bound. -/
def FitsBelow (m : ℕ) (x : Expr α) : Prop := ∃ k < m, Fits k x

variable {m k : ℕ} {e f t b x : Expr α} {ts fs : List (Expr α)}

namespace Fits

/-- An expression that fits on some floors fits on more. -/
theorem mono (h : Fits m e) (hmk : m ≤ k) : Fits k e := by
  induction h generalizing k with
  | number v => exact .number v
  | symbol hm s => exact .symbol (hm.trans_le hmk) s
  | add hm _ ih => exact .add (hm.trans_le hmk) fun t ht => ih t ht hmk
  | mul hm _ ih => exact .mul (hm.trans_le hmk) fun f hf => ih f hf hmk
  | pow hk _ hx ihb => exact .pow (hk.trans_le hmk) (ihb hmk) hx
  | call hm f args => exact .call (hm.trans_le hmk) f args

theorem pos (h : Fits m e) (he : e.number? = none) : 0 < m := by
  cases h with
  | number v => cases he
  | pow hk => exact Nat.zero_lt_of_lt hk
  | _ => assumption

/-- There are no more floors of exponents than nodes. -/
theorem size (e : Expr α) : Fits e.size e := by
  induction e with
  | number v => exact .number v
  | symbol s => exact .symbol (size_pos _) s
  | add ts ih =>
    exact .add (size_pos _) fun t ht => (ih t ht).mono (Nat.le_succ_of_le (size_le_sizeAll ht))
  | mul fs ih =>
    exact .mul (size_pos _) fun f hf => (ih f hf).mono (Nat.le_succ_of_le (size_le_sizeAll hf))
  | pow b x ihb ihx =>
    exact .pow (k := x.size) (by simp only [Expr.size]; omega)
      (ihb.mono (by simp only [Expr.size]; omega)) ihx
  | call f args => exact .call (size_pos _) f args

/-- The terms of a sum have no more floors than the sum. -/
theorem terms (h : Fits m (.add ts)) : ∀ t ∈ ts, Fits m t := by
  cases h with
  | add _ h => exact h

/-- The factors of a product have no more floors than the product. -/
theorem factors (h : Fits m (.mul fs)) : ∀ f ∈ fs, Fits m f := by
  cases h with
  | mul _ h => exact h

end Fits

theorem FitsBelow.pos (h : FitsBelow m x) : 0 < m :=
  have ⟨_, hk, _⟩ := h
  Nat.zero_lt_of_lt hk

theorem fitsBelow_number (hm : 0 < m) (v : α) : FitsBelow m (.number v) := ⟨0, hm, .number v⟩

variable [Scalar α] {n : ℕ} {c : α} {sumExponents : List (Expr α) → Expr α}

/-! ### What is collected fits -/

/-- A part of a sum is collected on some floor only. -/
def FitTerms (m : ℕ) (s : Terms α) : Prop := ∀ p ∈ s.parts, 0 < m ∧ Fits m p.1

/-- The exponents that are collected have fewer floors than the powers. -/
def FitFactors (m : ℕ) (p : Factors α) : Prop := ∀ q ∈ p.powers, Fits m q.1 ∧ FitsBelow m q.2

theorem Fits.splitCoefficient (h : Fits m t) : Fits m t.splitCoefficient.2 := by
  unfold Expr.splitCoefficient
  split
  · exact h.factors _ (by simp)
  · cases h with
    | mul hm h => exact .mul hm (List.forall_mem_cons.1 h).2
  · exact h

/-- The base of a factor fits where the factor does, its exponent one floor below. -/
theorem Fits.base_exponent (h : Fits m f) (hnumber : f.number? = none) :
    Fits m f.base ∧ FitsBelow m f.exponent := by
  cases h with
  | number v => cases hnumber
  | pow hk hb hx => exact ⟨hb, _, hk, hx⟩
  | _ => exact ⟨by constructor <;> assumption, fitsBelow_number (by assumption) 1⟩

theorem FitFactors.insert (hS : Hereditary.Adds (FitsBelow m) sumExponents) {p : Factors α}
    (hp : FitFactors m p) (hb : Fits m b) (hx : FitsBelow m x) :
    FitFactors m (p.insert sumExponents b x) :=
  Hereditary.forall_mem_insertWith ⟨hb, hx⟩ (fun _ v hv => ⟨hv.1, hS v x hv.2 hx⟩) hp

theorem FitFactors.collect (hS : Hereditary.Adds (FitsBelow m) sumExponents) {p : Factors α}
    (hp : FitFactors m p) (hf : Fits m f) : FitFactors m (Factors.collect sumExponents p f) :=
  invariant_of_collect (fun _ h => h.factors) (fun _ _ hp => hp)
    (fun _ _ hf hnumber _ hp =>
      have h := hf.base_exponent hnumber
      hp.insert hS h.1 h.2) f hf hp

theorem fitFactors_empty : FitFactors m (Factors.empty : Factors α) := by
  simp [FitFactors, Factors.empty]

/-- Collecting factors takes no more floors than they have. -/
theorem FitFactors.collectAll (hS : Hereditary.Adds (FitsBelow m) sumExponents)
    (hfs : ∀ f ∈ fs, Fits m f) :
    FitFactors m (Factors.collectAll sumExponents Factors.empty fs) :=
  invariant_of_collectAll (fun _ h => h.factors) (fun _ _ hp => hp)
    (fun _ _ hf hnumber _ hp =>
      have h := hf.base_exponent hnumber
      hp.insert hS h.1 h.2) fs hfs fitFactors_empty

/-! ### Writing down what is collected -/

theorem Fits.ofTerms (hm : 2 ≤ ts.length → 0 < m) (h : ∀ t ∈ ts, Fits m t) :
    Fits m (Expr.ofTerms ts) := by
  match ts with
  | [] => exact .number 0
  | [t] => exact h t (by simp)
  | t :: u :: ts => exact .add (hm (by simp)) h

theorem Fits.ofFactors (hm : 0 < m) (h : ∀ f ∈ fs, Fits m f) : Fits m (Expr.ofFactors c fs) := by
  have hall : ∀ f ∈ .number c :: fs, Fits m f := List.forall_mem_cons.2 ⟨.number c, h⟩
  unfold Expr.ofFactors
  split
  · exact .number c
  · split
    · exact h _ (by simp)
    · exact .mul hm hall
  · split
    · exact .mul hm h
    · exact .mul hm hall

/-- Factors that are spliced in bring no new floors. -/
theorem fits_foldl_appendFactor {acc : α × List (Expr α)} (hacc : ∀ f ∈ acc.2, Fits m f)
    (hfs : ∀ f ∈ fs, Fits m f) : ∀ f ∈ (fs.foldl appendFactor acc).2, Fits m f := by
  refine List.foldlRecOn (motive := fun acc : α × List (Expr α) => ∀ f ∈ acc.2, Fits m f) _ _ hacc
    fun acc hacc f hf => ?_
  unfold appendFactor
  split
  · exact hacc
  · exact List.forall_mem_append.2 ⟨hacc, (hfs _ hf).factors⟩
  · exact List.forall_mem_append.2 ⟨hacc, by simpa using hfs _ hf⟩

/-! ### Results have no more floors than operands -/

/-- The operations within a budget have results that fit on the floors of their operands. -/
structure KeepsFloors (m : ℕ) (sumExponents : List (Expr α) → Expr α) (n : ℕ) : Prop where
  collectTerm {s s' : Terms α} {t : Expr α} :
    collectTerm? sumExponents n s t = some s' → Fits m t → FitTerms m s → FitTerms m s'
  sum {ts : List (Expr α)} {e : Expr α} :
    sum? sumExponents n ts = some e → (∀ t ∈ ts, Fits m t) → Fits m e
  product {fs : List (Expr α)} {e : Expr α} :
    product? sumExponents n fs = some e → (∀ f ∈ fs, Fits m f) → Fits m e
  power {b x e : Expr α} :
    power? sumExponents n b x = some e → Fits m b → FitsBelow m x → Fits m e

namespace KeepsFloors

theorem scaled (hn : KeepsFloors m sumExponents n)
    (h : product? sumExponents n [.number c, t] = some e) (ht : Fits m t) : Fits m e :=
  hn.product h (by simpa using ⟨.number c, ht⟩)

theorem collectTerm_succ (hn : KeepsFloors m sumExponents n) {s s' : Terms α}
    (h : collectTerm? sumExponents (n + 1) s t = some s') (ht : Fits m t) (hs : FitTerms m s) :
    FitTerms m s' := by
  have hpart := ht.splitCoefficient
  rcases collectTerm?_cases h with
    ⟨ts, rfl, h⟩ | ⟨v, rfl, rfl⟩ | ⟨c, ts, hsplit, h⟩ | ⟨c, part, hsplit, hother, -, rfl⟩
  · exact invariant_of_foldlM (fun t h' _ _ h => hn.collectTerm h (ht.terms t h')) h hs
  · exact hs
  · rw [hsplit] at hpart
    refine invariant_of_foldlM (fun t h' _ _ h => ?_) h hs
    obtain ⟨e, he, h⟩ := Option.bind_eq_some_iff.1 h
    exact hn.collectTerm h (hn.scaled he (hpart.terms t h'))
  · rw [hsplit] at hpart
    exact Hereditary.forall_mem_insertWith ⟨ht.pos hother, hpart⟩ (fun _ _ hk => hk) hs

/-- What is collected of the terms of a sum. -/
theorem collected (hn : KeepsFloors m sumExponents n) {s : Terms α}
    (h : ts.foldlM (collectTerm? sumExponents n) Terms.empty = some s)
    (hts : ∀ t ∈ ts, Fits m t) : FitTerms m s :=
  invariant_of_foldlM (fun t ht _ _ h => hn.collectTerm h (hts t ht)) h
    (by simp [FitTerms, Terms.empty])

/-- A sum has no more floors than its terms. -/
theorem sum_succ (hn : KeepsFloors m sumExponents n)
    (h : sum? sumExponents (n + 1) ts = some e) (hts : ∀ t ∈ ts, Fits m t) : Fits m e := by
  obtain ⟨s, parts, hs, hparts, rfl⟩ := sum?_cases h
  have hs := hn.collected hs hts
  have hwritten : ∀ t ∈ parts, 0 < m ∧ Fits m t := by
    refine forall_mem_of_mapM_eq_some (fun p hp e he => ?_) hparts
    obtain ⟨hm, hp⟩ := hs p (List.mem_filter.1 hp).1
    split at he
    · exact ⟨hm, Option.some.inj he ▸ hp⟩
    · exact ⟨hm, hn.scaled he hp⟩
  -- Two terms are not both the constant.
  refine .ofTerms (fun htwo => ?_) (fun t ht => ?_)
  · cases parts with
    | nil => split at htwo <;> simp at htwo
    | cons t _ => exact (hwritten t List.mem_cons_self).1
  · split at ht
    · obtain ht | ht := List.mem_append.1 ht
      · exact (hwritten t ht).2
      · rw [List.mem_singleton.1 ht]
        exact .number _
    · exact (hwritten t ht).2

/-- A product has no more floors than its factors. -/
theorem product_succ (hS : Hereditary.Adds (FitsBelow m) sumExponents)
    (hn : KeepsFloors m sumExponents n) (h : product? sumExponents (n + 1) fs = some e)
    (hfs : ∀ f ∈ fs, Fits m f) : Fits m e := by
  have hpowers := FitFactors.collectAll hS hfs
  have hcases := product?_cases h
  generalize Factors.collectAll sumExponents Factors.empty fs = p at hpowers hcases
  rcases hcases with ⟨-, rfl⟩ | ⟨raised, c, gs, hraised, hout, h⟩
  · exact .number 0
  · have hfit : ∀ f ∈ raised, 0 < m ∧ Fits m f := forall_mem_of_mapM_eq_some
      (fun q hq e he => ⟨(hpowers q hq).2.pos, hn.power he (hpowers q hq).1 (hpowers q hq).2⟩)
      hraised
    have hgs : ∀ f ∈ gs, Fits m f := by
      rw [← show _ = gs from congrArg Prod.snd hout]
      exact fits_foldl_appendFactor (by simp) fun f hf => (hfit f hf).2
    rcases h with ⟨-, rfl⟩ | ⟨ts, rfl, -, rfl⟩ | ⟨ts, us, rfl, hus, h⟩ | ⟨-, -, rfl⟩
    · exact .number 0
    · exact hgs _ (by simp)
    · have hts := (hgs (.add ts) (by simp)).terms
      exact hn.sum h (forall_mem_of_mapM_eq_some (fun t ht e he => hn.scaled he (hts t ht)) hus)
    · cases raised with
      | nil =>
        obtain ⟨-, rfl⟩ := Prod.mk.inj hout
        exact .number c
      | cons f _ => exact .ofFactors (hfit f List.mem_cons_self).1 hgs

/-- A power fits where its base does, if its exponent fits one floor below. -/
theorem power_succ (hn : KeepsFloors m sumExponents n)
    (h : power? sumExponents (n + 1) b x = some e) (hb : Fits m b) (hx : FitsBelow m x) :
    Fits m e := by
  rcases power?_cases h with ⟨u, rfl, -, rfl⟩ | ⟨u, rfl, -, rfl⟩ | ⟨u, v, w, rfl, rfl, -, rfl⟩ |
    ⟨c, u, w, rfl, rfl, -, h⟩ | ⟨fs, w, gs, rfl, rfl, -, hgs, h⟩ | ⟨u, rfl, -, rfl⟩ | ⟨-, rfl⟩
  · exact .number 1
  · exact hb
  · exact .number w
  · obtain _ | _ | _ | _ | ⟨_, hc, _⟩ := hb
    exact hn.power h hc (fitsBelow_number hx.pos _)
  · exact hn.product h (forall_mem_of_mapM_eq_some
      (fun f hf e he => hn.power he (hb.factors f hf) hx) hgs)
  · exact .number 1
  · obtain ⟨k, hk, hx⟩ := hx
    exact .pow hk hb hx

end KeepsFloors

/-- No operation adds a floor, whatever its budget, by induction on it. -/
theorem keepsFloors (hS : Hereditary.Adds (FitsBelow m) sumExponents) (n : ℕ) :
    KeepsFloors m sumExponents n := by
  induction n with
  | zero => constructor <;> simp [collectTerm?, sum?, product?, power?]
  | succ n hn =>
    exact ⟨hn.collectTerm_succ, hn.sum_succ, hn.product_succ hS, hn.power_succ⟩

/-! ### The recursion follows the rounds -/

/-- The recursion adds two exponents in the given way. -/
def Nested.Adds (m : ℕ) (sumExponents : List (Expr α) → Expr α) : Prop :=
  ∀ x y, FitsBelow m x → FitsBelow m y →
    Returns (fun depth => Nested.sum depth [x, y]) (sumExponents [x, y])

namespace Nested

/-- Equal bases are found at once, and their exponents are added on the floor below. -/
theorem insertPower_returns (hA : Adds m sumExponents) {powers : List (Expr α × Expr α)}
    (hpowers : ∀ q ∈ powers, FitsBelow m q.2) (hx : FitsBelow m x) :
    Returns (fun depth => insertPower (sum depth) b x powers)
      (insertWith (fun y x => sumExponents [y, x]) b x powers) := by
  induction powers with
  | nil => exact .of_eq fun _ => rfl
  | cons q powers ih =>
    obtain ⟨k, y⟩ := q
    obtain ⟨hy, hrest⟩ := List.forall_mem_cons.1 hpowers
    by_cases hkb : (k == b) = true
    · simp only [insertPower, insertWith, if_pos hkb]
      exact (hA y x hy hx).bind (.of_eq fun _ => rfl)
    · simp only [insertPower, insertWith, if_neg hkb]
      exact (ih hrest).bind (.of_eq fun _ => rfl)

/-- Exponents that are collected are added one floor below. -/
theorem pushBase_returns (hA : Adds m sumExponents) {p : Factors α} (hp : FitFactors m p)
    (hx : FitsBelow m x) :
    Returns (fun depth => pushBase depth p b x) (p.insert sumExponents b x) := by
  refine .succ ?_
  simp only [pushBase]
  exact (insertPower_returns hA (fun q hq => (hp q hq).2) hx).bind (.of_eq fun _ => rfl)

theorem foldlM_collectFactor (hS : Hereditary.Adds (FitsBelow m) sumExponents) {p : Factors α}
    (hreturns : ∀ f ∈ fs, ∀ p, FitFactors m p →
      Returns (fun depth => collectFactor depth p f) (Factors.collect sumExponents p f))
    (hfs : ∀ f ∈ fs, Fits m f) (hp : FitFactors m p) :
    Returns (fun depth => fs.foldlM (collectFactor depth) p)
      (Factors.collectAll sumExponents p fs) := by
  induction fs generalizing p with
  | nil => exact .of_eq fun _ => rfl
  | cons f fs ih =>
    obtain ⟨hreturn, hreturns⟩ := List.forall_mem_cons.1 hreturns
    obtain ⟨hf, hfs⟩ := List.forall_mem_cons.1 hfs
    simp only [List.foldlM_cons, Factors.collectAll]
    exact (hreturn p hp).bind (ih hreturns hfs (hp.collect hS hf))

/-- A factor is collected with all that stands in it, by induction on the factor. -/
theorem collectFactor_returns (hS : Hereditary.Adds (FitsBelow m) sumExponents)
    (hA : Adds m sumExponents) {p : Factors α} (hf : Fits m f) (hp : FitFactors m p) :
    Returns (fun depth => collectFactor depth p f) (Factors.collect sumExponents p f) := by
  refine .succ ?_
  induction f generalizing p with
  | mul gs ih =>
    simp only [collectFactor, Factors.collect]
    exact foldlM_collectFactor hS (fun g hg _ hp => .succ (ih g hg (hf.factors g hg) hp))
      hf.factors hp
  | number v => exact .of_eq fun _ => by rw [collectFactor, Factors.collect]
  | _ =>
    simp only [collectFactor, Factors.collect]
    exact pushBase_returns hA hp (hf.base_exponent rfl).2

/-- What is collected of the factors of a product. -/
theorem collected (hS : Hereditary.Adds (FitsBelow m) sumExponents) (hA : Adds m sumExponents)
    (hfs : ∀ f ∈ fs, Fits m f) :
    Returns (fun depth => fs.foldlM (collectFactor depth) Factors.empty)
      (Factors.collectAll sumExponents Factors.empty fs) :=
  foldlM_collectFactor hS (fun f hf _ hp => collectFactor_returns hS hA (hfs f hf) hp) hfs
    fitFactors_empty

end Nested

/-- The recursion has the results of the operations within a budget. -/
structure Follows (m : ℕ) (sumExponents : List (Expr α) → Expr α) (n : ℕ) : Prop where
  collectTerm {s s' : Terms α} {t : Expr α} :
    collectTerm? sumExponents n s t = some s' → Fits m t →
      Returns (fun depth => Nested.collectTerm depth s t) s'
  sum {ts : List (Expr α)} {e : Expr α} :
    sum? sumExponents n ts = some e → (∀ t ∈ ts, Fits m t) →
      Returns (fun depth => Nested.sum depth ts) e
  product {fs : List (Expr α)} {e : Expr α} :
    product? sumExponents n fs = some e → (∀ f ∈ fs, Fits m f) →
      Returns (fun depth => Nested.product depth fs) e
  power {b x e : Expr α} :
    power? sumExponents n b x = some e → Fits m b → FitsBelow m x →
      Returns (fun depth => Nested.power depth b x) e

namespace Follows

theorem scaled (hn : Follows m sumExponents n)
    (h : product? sumExponents n [.number c, t] = some e) (ht : Fits m t) :
    Returns (fun depth => Nested.product depth [.number c, t]) e :=
  hn.product h (by simpa using ⟨.number c, ht⟩)

theorem collectPart (hS : Hereditary.Adds (FitsBelow m) sumExponents)
    (hn : Follows m sumExponents n) {s s' : Terms α} {part : Expr α}
    (h : collectPart? sumExponents n s c part = some s') (hpart : Fits m part) :
    Returns (fun depth => Nested.collectPart depth s c part) s' := by
  refine .succ ?_
  cases part with
  | add ts =>
    simp only [Nested.collectPart]
    refine .foldlM (fun t ht s s' h => ?_) h
    obtain ⟨e, he, h⟩ := Option.bind_eq_some_iff.1 h
    have ht := hpart.terms t ht
    exact (hn.scaled he ht).bind (hn.collectTerm h ((keepsFloors hS n).scaled he ht))
  | _ =>
    simp only [Nested.collectPart]
    exact .of_eq fun _ => h

theorem collectTerm_succ (hS : Hereditary.Adds (FitsBelow m) sumExponents)
    (hn : Follows m sumExponents n) {s s' : Terms α}
    (h : collectTerm? sumExponents (n + 1) s t = some s') (ht : Fits m t) :
    Returns (fun depth => Nested.collectTerm depth s t) s' := by
  refine .succ ?_
  cases t with
  | add ts =>
    rw [collectTerm?] at h
    simp only [Nested.collectTerm]
    exact .foldlM (fun t h' _ _ h => hn.collectTerm h (ht.terms t h')) h
  | number v =>
    rw [collectTerm?] at h
    simp only [Nested.collectTerm]
    exact .of_eq fun _ => h
  | _ =>
    rw [collectTerm?_eq_collectPart? (by simp) rfl] at h
    simp only [Nested.collectTerm]
    exact hn.collectPart hS h ht.splitCoefficient

theorem sum_succ (hS : Hereditary.Adds (FitsBelow m) sumExponents)
    (hn : Follows m sumExponents n) (h : sum? sumExponents (n + 1) ts = some e)
    (hts : ∀ t ∈ ts, Fits m t) : Returns (fun depth => Nested.sum depth ts) e := by
  obtain ⟨s, parts, hs, hparts, rfl⟩ := sum?_cases h
  have hfit := (keepsFloors hS n).collected hs hts
  refine .succ ?_
  simp only [Nested.sum]
  refine .bind (.foldlM (fun t ht _ _ h => hn.collectTerm h (hts t ht)) hs)
    (.bind (.mapM (forall₂_imp_of_mapM_eq_some (fun p hp e he => ?_) hparts)) (.of_eq fun _ => rfl))
  by_cases hone : (p.2 == 1) = true
  · simp only [if_pos hone] at he ⊢
    exact .of_eq fun _ => he
  · simp only [if_neg hone] at he ⊢
    exact hn.scaled he (hfit p (List.mem_filter.1 hp).1).2

theorem finish (hS : Hereditary.Adds (FitsBelow m) sumExponents)
    (hn : Follows m sumExponents n) (h : finish? sumExponents n c fs = some e)
    (hfs : ∀ f ∈ fs, Fits m f) : Returns (fun depth => Nested.finish depth c fs) e := by
  refine .succ ?_
  unfold finish? at h
  split at h
  · rename_i ts
    simp only [Nested.finish]
    by_cases hone : (c == 1) = true
    · simp only [if_pos hone] at h ⊢
      exact .of_eq fun _ => h
    · have hts := (hfs (.add ts) (by simp)).terms
      simp only [if_neg hone] at h ⊢
      obtain ⟨us, hus, h⟩ := Option.bind_eq_some_iff.1 h
      exact .bind
        (.mapM (forall₂_imp_of_mapM_eq_some (fun t ht _ he => hn.scaled he (hts t ht)) hus))
        (hn.sum h (forall_mem_of_mapM_eq_some
          (fun t ht e he => (keepsFloors hS n).scaled he (hts t ht)) hus))
  · refine .of_eq fun _ => ?_
    rw [Nested.finish]
    · exact h
    · assumption

theorem product_succ (hS : Hereditary.Adds (FitsBelow m) sumExponents)
    (hA : Nested.Adds m sumExponents) (hn : Follows m sumExponents n)
    (h : product? sumExponents (n + 1) fs = some e) (hfs : ∀ f ∈ fs, Fits m f) :
    Returns (fun depth => Nested.product depth fs) e := by
  have hpowers := FitFactors.collectAll hS hfs
  have hcollected := Nested.collected hS hA hfs
  rw [product?_eq_finish?] at h
  generalize Factors.collectAll sumExponents Factors.empty fs = p at hpowers hcollected h
  refine .succ ?_
  simp only [Nested.product]
  refine hcollected.bind ?_
  by_cases h0 : (p.coefficient == 0) = true
  · simp only [if_pos h0] at h ⊢
    exact .of_eq fun _ => h
  · simp only [if_neg h0] at h ⊢
    obtain ⟨raised, hraised, h⟩ := Option.bind_eq_some_iff.1 h
    have hfit : ∀ f ∈ raised, Fits m f := forall_mem_of_mapM_eq_some
      (fun q hq e he => (keepsFloors hS n).power he (hpowers q hq).1 (hpowers q hq).2) hraised
    refine .bind (.mapM (forall₂_imp_of_mapM_eq_some
      (fun q hq e he => hn.power he (hpowers q hq).1 (hpowers q hq).2) hraised)) ?_
    by_cases hout : ((raised.foldl appendFactor (p.coefficient, [])).1 == 0) = true
    · simp only [if_pos hout] at h ⊢
      exact .of_eq fun _ => h
    · simp only [if_neg hout] at h ⊢
      exact hn.finish hS h (fits_foldl_appendFactor (by simp) hfit)

theorem power_succ (hS : Hereditary.Adds (FitsBelow m) sumExponents)
    (hn : Follows m sumExponents n) (h : power? sumExponents (n + 1) b x = some e) (hb : Fits m b)
    (hx : FitsBelow m x) : Returns (fun depth => Nested.power depth b x) e := by
  refine .succ ?_
  unfold power? at h
  split at h
  · cases h
  · rename_i v hm
    obtain rfl := Nat.succ.inj hm
    split at h
    · refine .of_eq fun _ => ?_
      unfold Nested.power
      rwa [if_pos ‹_›]
    · rename_i h0
      split at h
      · refine .of_eq fun _ => ?_
        unfold Nested.power
        rwa [if_neg h0, if_pos ‹_›]
      · rename_i h1
        split at h
        · refine .of_eq fun _ => ?_
          rwa [Nested.power, if_neg h0, if_neg h1]
        · simp only [Nested.power, if_neg h0, if_neg h1]
          by_cases hint : Scalar.isInteger v = true
          · simp only [if_pos hint] at h ⊢
            obtain _ | _ | _ | _ | ⟨_, hc, _⟩ := hb
            exact hn.power h hc (fitsBelow_number hx.pos _)
          · simp only [if_neg hint] at h ⊢
            exact .of_eq fun _ => h
        · simp only [Nested.power, if_neg h0, if_neg h1]
          by_cases hint : Scalar.isInteger v = true
          · simp only [if_pos hint] at h ⊢
            obtain ⟨gs, hgs, h⟩ := Option.bind_eq_some_iff.1 h
            exact .bind (.mapM (forall₂_imp_of_mapM_eq_some
                (fun f hf _ he => hn.power he (hb.factors f hf) hx) hgs))
              (hn.product h (forall_mem_of_mapM_eq_some
                (fun f hf e he => (keepsFloors hS n).power he (hb.factors f hf) hx) hgs))
          · simp only [if_neg hint] at h ⊢
            exact .of_eq fun _ => h
        · refine .of_eq fun _ => ?_
          rw [Nested.power, if_neg h0, if_neg h1]
          · exact h
          all_goals assumption
  · refine .of_eq fun _ => ?_
    rw [Nested.power]
    · exact h
    · assumption
  · refine .of_eq fun _ => ?_
    rw [Nested.power]
    · exact h
    all_goals assumption

end Follows

/-- The recursion returns what each budget gives, by induction on the budget. -/
theorem follows (hS : Hereditary.Adds (FitsBelow m) sumExponents)
    (hA : Nested.Adds m sumExponents) (n : ℕ) : Follows m sumExponents n := by
  induction n with
  | zero => constructor <;> simp [collectTerm?, sum?, product?, power?]
  | succ n hn =>
    exact ⟨hn.collectTerm_succ hS, hn.sum_succ hS, hn.product_succ hS hA, hn.power_succ hS⟩

/-! ### All floors -/

/-- Exponents are added one floor below, where the recursion follows the operations by induction on
the floors. -/
theorem adds_fitsBelow (hmk : m ≤ k) :
    Hereditary.Adds (FitsBelow m : Expr α → Prop) (sumOn k) ∧
      Nested.Adds m (sumOn k : List (Expr α) → Expr α) := by
  induction k generalizing m with
  | zero =>
    obtain rfl : m = 0 := by omega
    exact ⟨fun x y hx => absurd hx.pos (Nat.lt_irrefl 0),
      fun x y hx => absurd hx.pos (Nat.lt_irrefl 0)⟩
  | succ k ih =>
    have hadd (x y : Expr α) (hx : FitsBelow m x) (hy : FitsBelow m y) :
        FitsBelow m (sumOn (k + 1) [x, y]) ∧
          Returns (fun depth => Nested.sum depth [x, y]) (sumOn (k + 1) [x, y]) := by
      obtain ⟨i, hi, hx⟩ := hx
      obtain ⟨j, hj, hy⟩ := hy
      obtain _ | m := m
      · omega
      have hfit : ∀ t ∈ [x, y], Fits m t := by
        simpa using ⟨hx.mono (Nat.le_of_lt_succ hi), hy.mono (Nat.le_of_lt_succ hj)⟩
      obtain ⟨hS, hA⟩ := ih (Nat.le_of_succ_le_succ hmk)
      have hsum := sum?_budget k [x, y]
      exact ⟨⟨m, Nat.lt_succ_self m, (keepsFloors hS _).sum hsum hfit⟩,
        (follows hS hA _).sum hsum hfit⟩
    exact ⟨fun x y hx hy => (hadd x y hx hy).1, fun x y hx hy => (hadd x y hx hy).2⟩

namespace Nested

/-- The recursion for sums returns the canonical sum. -/
theorem sum_returns (ts : List (Expr α)) :
    Returns (fun depth => Nested.sum depth ts) (Expr.sum ts) := by
  obtain ⟨hS, hA⟩ := adds_fitsBelow (α := α) (le_refl (sizeAll ts))
  exact (follows hS hA _).sum (sum?_budget _ ts) fun t ht =>
    (Fits.size t).mono (size_le_sizeAll ht)

/-- The recursion for products returns the canonical product. -/
theorem product_returns (fs : List (Expr α)) :
    Returns (fun depth => Nested.product depth fs) (Expr.product fs) := by
  obtain ⟨hS, hA⟩ := adds_fitsBelow (α := α) (le_refl (sizeAll fs))
  exact (follows hS hA _).product (product?_budget fs) fun f hf =>
    (Fits.size f).mono (size_le_sizeAll hf)

/-- The recursion for powers returns the canonical power. -/
theorem power_returns (b x : Expr α) :
    Returns (fun depth => Nested.power depth b x) (Expr.power b x) := by
  obtain ⟨hS, hA⟩ := adds_fitsBelow (α := α) (le_refl (b.size + x.size))
  exact (follows hS hA _).power (power?_budget b x) ((Fits.size b).mono (Nat.le_add_right _ _))
    ⟨x.size, Nat.lt_add_of_pos_left (size_pos b), Fits.size x⟩

theorem exists_returns_collectTerm (s : Terms α) (t : Expr α) :
    ∃ s', Returns (fun depth => collectTerm depth s t) s' := by
  obtain ⟨hS, hA⟩ := adds_fitsBelow (α := α) (le_refl t.size)
  obtain ⟨s', h⟩ := Option.isSome_iff_exists.1
    ((sufficient (sumOn_isLight t.size) _).collectTerm (s := s) (le_refl (2 * t.weight + 2)))
  exact ⟨s', (follows hS hA _).collectTerm h (Fits.size t)⟩

theorem exists_returns_collectPart (s : Terms α) (c : α) (part : Expr α) :
    ∃ s', Returns (fun depth => collectPart depth s c part) s' := by
  cases part with
  | add ts =>
    obtain ⟨s', h⟩ : ∃ s', Returns (fun depth => ts.foldlM
        (fun s t => do collectTerm depth s (← product depth [.number c, t])) s) s' := by
      refine Returns.exists_foldlM fun t _ s => ?_
      obtain ⟨s', h⟩ := exists_returns_collectTerm s (Expr.product [.number c, t])
      exact ⟨s', (product_returns [.number c, t]).bind h⟩
    exact ⟨s', .succ h⟩
  | _ => exact ⟨_, .succ (.of_eq fun _ => rfl)⟩

theorem exists_returns_pushBase (p : Factors α) (b x : Expr α) :
    ∃ p', Returns (fun depth => pushBase depth p b x) p' := by
  have hpowers (powers : List (Expr α × Expr α)) :
      ∃ powers', Returns (fun depth => insertPower (sum depth) b x powers) powers' := by
    induction powers with
    | nil => exact ⟨_, .of_eq fun _ => rfl⟩
    | cons q powers ih =>
      obtain ⟨k, y⟩ := q
      obtain ⟨rest, hrest⟩ := ih
      by_cases hkb : (k == b) = true
      · simp only [insertPower, if_pos hkb]
        exact ⟨_, (sum_returns [y, x]).bind (.of_eq fun _ => rfl)⟩
      · simp only [insertPower, if_neg hkb]
        exact ⟨_, hrest.bind (.of_eq fun _ => rfl)⟩
  obtain ⟨powers, h⟩ := hpowers p.powers
  exact ⟨_, .succ (h.bind (.of_eq fun _ => rfl))⟩

theorem exists_returns_collectFactor (p : Factors α) (f : Expr α) :
    ∃ p', Returns (fun depth => collectFactor depth p f) p' := by
  induction f generalizing p with
  | mul gs ih =>
    obtain ⟨p', h⟩ := Returns.exists_foldlM (s := p) fun g hg p => ih g hg p
    exact ⟨p', .succ h⟩
  | number v => exact ⟨_, .succ (.of_eq fun _ => rfl)⟩
  | _ =>
    obtain ⟨p', h⟩ := exists_returns_pushBase p _ _
    exact ⟨p', .succ h⟩

/-- Putting a coefficient and factors together returns. -/
theorem exists_returns_finish (c : α) (gs : List (Expr α)) :
    ∃ e, Returns (fun depth => finish depth c gs) e := by
  by_cases hsum : ∃ ts, gs = [.add ts]
  · obtain ⟨ts, rfl⟩ := hsum
    by_cases hone : (c == 1) = true
    · exact ⟨.add ts, .succ (.of_eq fun _ => by rw [finish, if_pos hone])⟩
    · have hscaled : Returns (fun depth => ts.mapM fun t => product depth [.number c, t])
          (ts.map fun t => Expr.product [.number c, t]) :=
        .mapM (List.forall₂_map_right_iff.2 (List.forall₂_same.2 fun t _ => product_returns _))
      refine ⟨Expr.sum (ts.map fun t => Expr.product [.number c, t]), .succ ?_⟩
      simp only [finish, if_neg hone]
      exact hscaled.bind (sum_returns _)
  · refine ⟨ofFactors c gs, .succ (.of_eq fun _ => ?_)⟩
    rw [finish]
    exact fun ts h => hsum ⟨ts, h⟩

/-- Every call of the recursion returns, for all operands and whatever numbers come out of the
arithmetic on coefficients and exponents. The canonical operations are what it returns. -/
theorem every_call_returns :
    (∀ ts : List (Expr α), Returns (fun depth => Nested.sum depth ts) (Expr.sum ts)) ∧
    (∀ fs : List (Expr α), Returns (fun depth => Nested.product depth fs) (Expr.product fs)) ∧
    (∀ b x : Expr α, Returns (fun depth => Nested.power depth b x) (Expr.power b x)) ∧
    (∀ (s : Terms α) t, ∃ s', Returns (fun depth => collectTerm depth s t) s') ∧
    (∀ (s : Terms α) c part, ∃ s', Returns (fun depth => collectPart depth s c part) s') ∧
    (∀ (p : Factors α) f, ∃ p', Returns (fun depth => collectFactor depth p f) p') ∧
    (∀ (p : Factors α) b x, ∃ p', Returns (fun depth => pushBase depth p b x) p') ∧
    ∀ (c : α) gs, ∃ e, Returns (fun depth => finish depth c gs) e :=
  ⟨sum_returns, product_returns, power_returns, exists_returns_collectTerm,
    exists_returns_collectPart, exists_returns_collectFactor, exists_returns_pushBase,
    exists_returns_finish⟩

end Nested

end Expr

end Kirchhoff
