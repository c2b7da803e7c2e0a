import Kirchhoff.Proofs.Formula.Fraction

/-!
# Printed expressions mean what they say

The text of an expression that is built by the operations is a formula of C with the same value,
wherever the expression has one (`parse?_text`). The numbers are exact, and so are their numerals.
Nothing is said about doubles, where a denominator may be rounded when it is built for writing.

The proof goes by the budget for writing: each round descends to operands, or to a power that weighs
no more and is no fraction (`legible`). The numerals, names and marks of the text are put together
as lexemes before, so that the text is read back by its lexemes (`Kirchhoff.tokens?_join`).
-/

namespace Kirchhoff.Expr

open Formula (Derives Rank isName isNumeral parse? tokens?)

variable {A : Reading} {S : Symbol → Prop} {N : String → Prop} {W n : ℕ}

/-! ### Operands -/

/-- The rank of the formula that an expression is written as. -/
def rank : Expr Rat → Rank
  | .add _ => .sum
  | .mul _ => .product
  | .pow _ x => if x.isNegative then .product else .factor
  | _ => .factor

/-- An expression is written within the budget, at its rank. -/
def Legible (A : Reading) (n : ℕ) (e : Expr Rat) : Prop :=
  ∃ ls, lexemes? n e = some ls ∧ Writes A e.rank e ls

/-- The lexemes of a factor. -/
def factorLexemes? (n : ℕ) (f : Expr Rat) : Option (List (Lexeme Rat)) := do
  let ls ← lexemes? n f
  return if f.isOpen then parenthesize ls else ls

theorem Legible.factor {f : Expr Rat} (h : Legible A n f) (hf : f.level ≤ 2) :
    ∃ ls, factorLexemes? n f = some ls ∧ Writes A .factor f ls := by
  obtain ⟨ls, hls, hwrites⟩ := h
  refine ⟨if f.isOpen then parenthesize ls else ls, by simp [factorLexemes?, hls], ?_⟩
  split
  · exact hwrites.parenthesize
  · rename_i hopen
    have hrank : f.rank = .factor := by
      cases f with
      | add => simp [isOpen] at hopen
      | mul => simp [level] at hf
      | pow b x => cases hx : x.isNegative <;> simp_all [level, rank]
      | _ => rfl
    rwa [hrank] at hwrites

/-- The lexemes of a fraction. -/
def fractionLexemes? (n : ℕ) (q : Fraction Rat) : Option (List (Lexeme Rat)) := do
  return q.lexemes (← q.above.mapM (factorLexemes? n)) (← q.below.mapM (factorLexemes? n))

theorem legible_fraction {q : Fraction Rat} (hq : q.HasPieces S N W)
    (ih : ∀ f, IsPiece S N W f → Legible A n f) :
    ∃ ls, fractionLexemes? n q = some ls ∧ Writes A .product q.expr ls := by
  obtain ⟨above, habove, hwritesAbove⟩ := exists_forall₂_mapM fun f hf =>
    (ih f (hq.1 f hf)).factor (hq.1 f hf).level
  obtain ⟨below, hbelow, hwritesBelow⟩ := exists_forall₂_mapM fun f hf =>
    (ih f (hq.2 f hf)).factor (hq.2 f hf).level
  exact ⟨_, by simp [fractionLexemes?, habove, hbelow], Fraction.writes hwritesAbove hwritesBelow⟩

/-! ### Terms -/

theorem weight_product_le (fs : List (Expr Rat)) : (product fs).weight ≤ weightAll fs :=
  (bounded (sumOn_isLight _) _).product (product?_budget fs)

/-- What is taken away by a term is its opposite. -/
theorem magnitude?_spec {t m : Expr Rat} (h : t.magnitude? = some m) (ht : IsRegular S N t) :
    IsRegular S N m ∧ m.weight ≤ t.weight ∧
      ∀ (ρ : Environment Rat) v, t.eval ρ = some v → m.eval ρ = some (-v) := by
  unfold magnitude? at h
  split at h
  · obtain rfl := Option.some.inj (Option.ite_none_right_eq_some.1 h).2
    refine ⟨.number _, by simp [weight], fun ρ v hv => ?_⟩
    rw [eval_number, ← Option.some.inj hv]
  · rename_i c fs
    obtain rfl := Option.some.inj (Option.ite_none_right_eq_some.1 h).2
    refine ⟨?_, ?_, fun ρ v hv => ?_⟩
    · have hfs := (List.forall_mem_cons.1 ((hereditary_isRegular S N).factors ht)).2
      exact (hereditary_isRegular S N).product (List.forall_mem_cons.2 ⟨.number _, hfs⟩)
    · simpa [weight, weightAll] using weight_product_le (.number (-c) :: fs)
    · obtain ⟨x, hx, rfl⟩ := eval_mul_number_iff.1 hv
      exact product_refines _ _ (eval_mul_number_iff.2 ⟨x, hx, neg_mul c x⟩)
  · cases h

/-- The lexemes of a term that stands behind others, with its sign. -/
def termLexemes? (n : ℕ) (t : Expr Rat) : Option (List (Lexeme Rat)) :=
  match t.magnitude? with
  | some m => do
    let ls ← lexemes? n m
    return .minus :: (match m with | .add _ => parenthesize ls | _ => ls)
  | none => do return .plus :: (← lexemes? n t)

/-- The lexemes go on with a sum by a term. -/
def Continues (A : Reading) (t : Expr Rat) (ls : List (Lexeme Rat)) : Prop :=
  ∀ ts ms, Writes A .sum (.add ts) ms → Writes A .sum (.add (ts ++ [t])) (ms ++ ls)

theorem legible_term {t : Expr Rat} (ht : IsRegular S N t)
    (ih : ∀ e, IsRegular S N e → e.weight ≤ t.weight → Legible A n e) :
    ∃ ls, termLexemes? n t = some ls ∧ Continues A t ls := by
  unfold termLexemes?
  cases hm : t.magnitude? with
  | none =>
    obtain ⟨ls, hls, hwrites⟩ := ih t ht (Nat.le_refl _)
    exact ⟨.plus :: ls, by simp [hls], fun ts ms hms => hms.plus hwrites⟩
  | some m =>
    obtain ⟨hmregular, hmweight, hvalue⟩ := magnitude?_spec hm ht
    obtain ⟨ls, hls, hwrites⟩ := ih m hmregular hmweight
    refine ⟨_, by simp only [hls]; rfl, fun ts ms hms => hms.minus ?_ hvalue⟩
    split
    · exact hwrites.parenthesize.to_product (by simp)
    · rename_i hadd
      refine hwrites.to_product fun hrank => ?_
      unfold rank at hrank
      split at hrank
      · exact hadd _ rfl
      · cases hrank
      · split at hrank <;> cases hrank
      · cases hrank

/-- Terms go on with a sum one after the other. -/
theorem writes_terms {ts us : List (Expr Rat)} {ls : List (Lexeme Rat)}
    {lss : List (List (Lexeme Rat))} (h : Writes A .sum (.add ts) ls)
    (hus : List.Forall₂ (Continues A) us lss) :
    Writes A .sum (.add (ts ++ us)) (ls ++ lss.flatten) := by
  induction hus generalizing ts ls with
  | nil => simpa using h
  | cons hu _ ih => simpa using ih (hu _ _ h)

/-! ### One round of writing -/

section

variable {fs ts : List (Expr Rat)} {b x t : Expr Rat} {f : String}

theorem lexemes?_add : lexemes? (n + 1) (.add (t :: ts)) = do
    return (← lexemes? n t) ++ (← ts.mapM (termLexemes? n)).flatten := by
  refine congrArg (fun term : Expr Rat → Option (List (Lexeme Rat)) => (do
    return (← lexemes? n t) ++ (← ts.mapM term).flatten : Option _)) (funext fun t => ?_)
  unfold termLexemes?
  cases t.magnitude? with
  | none => rfl
  | some m => cases m <;> rfl

theorem lexemes?_pow : lexemes? (n + 1) (.pow b x) =
    if x.isNegative then fractionLexemes? n (.ofFactors [.pow b x])
    else do
      return .name "pow" ::
        parenthesize (separated .comma [← lexemes? n b, ← lexemes? n x]) := by
  rw [lexemes?]
  split
  · rfl
  · simp [separated]

theorem lexemes?_call : lexemes? (n + 1) (.call f ts) = do
    return .name f :: parenthesize (separated .comma (← ts.mapM (lexemes? n))) := rfl

end

/-! ### Everything is written -/

/-- The valuation reads the names of symbols and functions as the environment reads these, and
powers as calls of `pow`. -/
structure Agrees (S : Symbol → Prop) (N : String → Prop) (ρ : Environment Rat)
    (η : Formula.Valuation) : Prop where
  symbol {s : Symbol} {v : Rat} (hs : S s) (h : ρ.symbol s = some v) : η.name s.name = some v
  function {f : String} {xs : List Rat} {v : Rat} (hf : N f) (h : ρ.function f xs = some v) :
    η.function f xs = some v
  pow {x y v : Rat} (h : Scalar.integralPower? x y = some v) : η.function "pow" [x, y] = some v

/-- Regular expressions are written within a budget of three times their weight. -/
def AllLegible (S : Symbol → Prop) (N : String → Prop) (n : ℕ) : Prop :=
  ∀ e : Expr Rat, IsRegular S N e → 3 * e.weight + e.level ≤ n → Legible (Agrees S N) n e

section

variable {fs ts args : List (Expr Rat)} {b x : Expr Rat}

theorem legible_add (ih : AllLegible S N n) (hne : ts ≠ []) (hts : ∀ t ∈ ts, IsRegular S N t)
    (h : 3 * weightAll ts + 3 ≤ n) : Legible (Agrees S N) (n + 1) (.add ts) := by
  obtain ⟨t, ts, rfl⟩ := List.exists_cons_of_ne_nil hne
  obtain ⟨ht, hrest⟩ := List.forall_mem_cons.1 hts
  have hterm (e : Expr Rat) (he : IsRegular S N e) (hweight : e.weight ≤ weightAll (t :: ts)) :
      Legible (Agrees S N) n e := by
    have := e.level_le
    exact ih e he (by omega)
  obtain ⟨ls, hls, hwrites⟩ := hterm t ht (weight_le_weightAll (by simp))
  obtain ⟨lss, hlss, hgo⟩ := exists_forall₂_mapM fun u hu =>
    legible_term (hrest u hu) fun e he hweight =>
      hterm e he (hweight.trans (weight_le_weightAll (List.mem_cons_of_mem t hu)))
  have hfirst : Writes (Agrees S N) .sum (.add [t]) ls :=
    hwrites.to_sum.of_refines fun ρ v => eval_add_singleton.1
  exact ⟨_, by simp [lexemes?_add, hls, hlss], writes_terms hfirst hgo⟩

/-- The factors of a product are written as a fraction. -/
theorem exists_fractionLexemes? (ih : AllLegible S N n) (hfs : ∀ f ∈ fs, IsRegular S N f)
    (hflat : ∀ f ∈ fs, ∀ gs, f ≠ .mul gs) (h : 3 * weightAll fs + 2 ≤ n) :
    ∃ ls, fractionLexemes? n (.ofFactors fs) = some ls ∧
      Writes (Agrees S N) .product (.mul fs) ls := by
  have hpieces := Fraction.hasPieces_ofFactors hfs hflat (Nat.le_refl _)
  obtain ⟨ls, hls, hwrites⟩ := legible_fraction hpieces fun f hf => by
    have := hf.weight
    have := hf.level
    exact ih f hf.regular (by omega)
  exact ⟨ls, hls, hwrites.of_refines fun ρ => Fraction.eval_ofFactors⟩

/-- The base of a power that is no fraction takes less than the power. -/
theorem weight_add_level_le (b : Expr Rat) : 3 * b.weight + b.level ≤ 3 * b.baseWeight + 1 := by
  have hlevel := b.level_le
  cases b with
  | mul fs =>
    have := weightAll_le_baseWeightAll fs
    simp only [weight, baseWeight]
    omega
  | pow b x =>
    simp only [weight, baseWeight]
    omega
  | _ => simp only [weight, baseWeight, level]; omega

theorem legible_pow (ih : AllLegible S N n) (hb : IsRegular S N b) (hx : IsRegular S N x)
    (hset : IsSettled b x) (h : 3 * (Expr.pow b x).weight + (Expr.pow b x).level ≤ n + 1) :
    Legible (Agrees S N) (n + 1) (.pow b x) := by
  simp only [weight, level] at h
  unfold Legible
  rw [lexemes?_pow, rank]
  split
  · rename_i hneg
    rw [if_pos hneg] at h
    have hregular : ∀ f ∈ [Expr.pow b x], IsRegular S N f := by simpa using .pow hb hx hset
    obtain ⟨ls, hls, hwrites⟩ := exists_fractionLexemes? ih hregular (by simp)
      (by simp only [weightAll, weight]; omega)
    exact ⟨ls, hls, hwrites.of_refines fun ρ v => eval_mul_singleton.2⟩
  · rename_i hneg
    rw [if_neg hneg] at h
    have hbase := b.two_le_baseWeight
    have hlevel := x.level_le
    have hweight := b.weight_add_level_le
    obtain ⟨ls, hls, hbwrites⟩ := ih b hb (by omega)
    obtain ⟨ms, hms, hxwrites⟩ := ih x hx (by omega)
    have hname : isName "pow" := by decide +kernel
    refine ⟨_, by rw [hls, hms]; rfl, .call hname
      (.cons hbwrites.to_sum (.cons hxwrites.to_sum .nil)) fun ρ η hη v hv => ?_⟩
    obtain ⟨y, k, hy, hk, hpower, rfl⟩ := eval_pow_iff.1 hv
    exact ⟨[y, k], evalAll_cons_iff.2 ⟨y, [↑k], hy, evalAll_cons_iff.2 ⟨k, [], hk, rfl, rfl⟩, rfl⟩,
      hη.pow (integralPower?_eq_some_iff.2 ⟨k, rfl, hpower, rfl⟩)⟩

theorem legible_call (ih : AllLegible S N n) {f : String} (hf : N f) (hname : isName f)
    (hargs : ∀ a ∈ args, IsRegular S N a) (h : 3 * weightAll args + 3 ≤ n) :
    Legible (Agrees S N) (n + 1) (.call f args) := by
  have hlegible (a : Expr Rat) (ha : a ∈ args) : Legible (Agrees S N) n a := by
    have := weight_le_weightAll ha
    have := a.level_le
    exact ih a (hargs a ha) (by omega)
  obtain ⟨lss, hlss, hwrites⟩ := exists_forall₂_mapM
    (R := fun a ls => Writes (Agrees S N) .sum a ls) fun a ha =>
      (hlegible a ha).imp fun ls h => ⟨h.1, h.2.to_sum⟩
  refine ⟨_, by simp [lexemes?_call, hlss], .call hname hwrites fun ρ η hη v hv => ?_⟩
  obtain ⟨xs, hxs, hv⟩ := eval_call_iff.1 hv
  exact ⟨xs, hxs, hη.function hf hv⟩

end

/-- Every regular expression is written, and its lexemes mean it. -/
theorem legible (hS : ∀ s, S s → isName s.name) (hN : ∀ f, N f → isName f) (n : ℕ) :
    AllLegible S N n := by
  induction n with
  | zero =>
    intro e _ h
    have := e.level_pos
    omega
  | succ n ih =>
    intro e he h
    cases he with
    | number v => exact ⟨_, rfl, .number v⟩
    | symbol hs => exact ⟨_, rfl, .name _, .name (hS _ hs), fun ρ η hη v hv => hη.symbol hs hv⟩
    | add hlen hts =>
      simp only [weight, level] at h
      exact legible_add ih (List.ne_nil_of_length_pos (by omega)) hts (by omega)
    | mul _ hfs hflat =>
      simp only [weight, level] at h
      exact exists_fractionLexemes? ih hfs hflat (by omega)
    | pow hb hx hset => exact legible_pow ih hb hx hset h
    | call hf hargs =>
      simp only [weight, level] at h
      exact legible_call ih hf (hN _ hf) hargs (by omega)

/-- The budget for canonical forms is enough for writing. -/
theorem writes_lexemes (hS : ∀ s, S s → isName s.name) (hN : ∀ f, N f → isName f) {e : Expr Rat}
    (he : IsRegular S N e) : Writes (Agrees S N) .sum e e.lexemes := by
  have hweight := e.weight_le_baseWeight.trans e.baseWeight_le_size
  have hlevel := e.level_le
  have hbudget : 8 * (e.size + 2) ≤ budget e.size :=
    Nat.mul_le_mul_left 8 (Nat.le_mul_of_pos_right _ (Nat.succ_pos _))
  obtain ⟨ls, hls, hwrites⟩ := legible hS hN (budget e.size) e he (by omega)
  rw [lexemes, hls]
  exact hwrites.to_sum

/-! ### Reading the text -/

/-- The valuation that reads the names of symbols as an environment reads the symbols. -/
def namedValuation (ρ : Valuation Rat) (ss : List Symbol) : Formula.Valuation where
  name n := (ss.find? fun s => s.name == n).bind ρ.symbol
  function f xs :=
    if f = "pow" then
      match xs with
      | [x, y] => Scalar.integralPower? x y
      | _ => none
    else ρ.function f xs

/-- Where distinct symbols have distinct names, a name is read as its symbol. -/
theorem agrees_namedValuation (ρ : Environment Rat) {ss : List Symbol}
    (hdistinct : ∀ s ∈ ss, ∀ t ∈ ss, s.name = t.name → (s == t) = true) :
    Agrees (fun s => s ∈ ss ∧ isName s.name) (fun f => isName f ∧ f ≠ "pow") ρ
      (namedValuation ρ ss) where
  symbol {s v} hs h := by
    have hfound : (ss.find? fun t => t.name == s.name).isSome :=
      List.find?_isSome.2 ⟨s, hs.1, by simp⟩
    obtain ⟨t, ht⟩ := Option.isSome_iff_exists.1 hfound
    have hname : t.name = s.name := by simpa using List.find?_some ht
    simp only [namedValuation, ht, Option.bind_some]
    rw [ρ.symbol_congr (hdistinct t (List.mem_of_find?_eq_some ht) s hs.1 hname), h]
  function hf h := by simpa [namedValuation, hf.2] using h
  pow h := by simpa [namedValuation] using h

/-- **Printed expressions mean what they say**: the text of an expression that is built by the
operations is read as exactly one formula, and this has the value of the expression in every
environment where the expression has one. The names of symbols and functions have to be identifiers
that are told apart, and the numerals have to be read as the numbers that they are written for. -/
theorem parse?_text [Numeral Rat] {e : Expr Rat} (he : IsBuilt e)
    (hsymbols : ∀ s ∈ e.symbols, isName s.name)
    (hdistinct : ∀ s ∈ e.symbols, ∀ t ∈ e.symbols, s.name = t.name → (s == t) = true)
    (hfunctions : ∀ f ∈ e.functions, isName f ∧ f ≠ "pow") (read : String → Option Rat)
    (hread : ∀ v, .number v ∈ e.lexemes →
      isNumeral (Numeral.numeral v) ∧ read (Numeral.numeral v) = some v) :
    ∃ ts f, tokens? read e.text = some ts ∧ parse? ts = some f ∧
      (∀ g, Derives .sum ts g ↔ g = f) ∧
      ∀ (ρ : Environment Rat) v, e.eval ρ = some v →
        f.eval (namedValuation ρ e.symbols) = some v := by
  have hregular : IsRegular (fun s => s ∈ e.symbols ∧ isName s.name)
      (fun f => isName f ∧ f ≠ "pow") e :=
    he.isRegular.named (fun s hs => ⟨hs, hsymbols s hs⟩) hfunctions
  obtain ⟨f, hf, hmeans⟩ := writes_lexemes (fun _ hs => hs.2) (fun _ hf => hf.1) hregular
  refine ⟨_, f, tokens?_join hf.wellSpelled hread, Formula.parse?_of_derives hf,
    fun g => ⟨fun hg => hg.unique hf, fun hg => hg ▸ hf⟩, fun ρ => ?_⟩
  exact hmeans ρ _ (agrees_namedValuation ρ hdistinct)

/-- Numerals for whole numbers. -/
@[reducible] def wholeNumeral : Numeral Rat := ⟨fun v => toString v.num ++ ".0"⟩

/-- The whole number that a numeral is written for. -/
def readWhole (s : String) : Option Rat :=
  some ((s.toList.takeWhile Char.isDigit).foldl (fun n c => 10 * n + (c.toNat - '0'.toNat)) 0 : ℕ)

/-- A difference of quotients, with its text. -/
theorem parse?_text_difference :
    let x : Expr Rat := .symbol ⟨0, "V.pot"⟩
    let y : Expr Rat := .symbol ⟨1, "R.pot"⟩
    let e := x / (y * y) - .number 2 * .call "exp" [x - y] / (x + y)
    letI := wholeNumeral
    (∀ v, .number v ∈ e.lexemes →
      isNumeral (Numeral.numeral v) ∧ readWhole (Numeral.numeral v) = some v) ∧
    e.text = "V.pot/pow(R.pot, 2.0) - 2.0*exp(V.pot - R.pot)/(V.pot + R.pot)" ∧
    ∃ ts f, tokens? readWhole e.text = some ts ∧ parse? ts = some f ∧
      (∀ g, Derives .sum ts g ↔ g = f) ∧
      ∀ (ρ : Environment Rat) v, e.eval ρ = some v →
        f.eval (namedValuation ρ e.symbols) = some v := by
  intro x y e
  let := wholeNumeral
  have hx : IsBuilt x := .symbol _
  have hy : IsBuilt y := .symbol _
  have he : IsBuilt e :=
    (hx.divide (hy.times hy) trivial).minus
      (((IsBuiltWith.number 2).times (.call "exp" (by simpa using hx.minus hy))).divide (hx.plus hy)
        trivial)
  have hnumbers : ∀ l ∈ e.lexemes, ∀ v, l = .number v →
      isNumeral (Numeral.numeral v) ∧ readWhole (Numeral.numeral v) = some v := by
    have hcheck : e.lexemes.all fun
        | .number v => isNumeral (Numeral.numeral v) && readWhole (Numeral.numeral v) == some v
        | _ => true := by
      decide +kernel
    rintro l hl v rfl
    simpa using List.all_eq_true.1 hcheck _ hl
  have hread v (hv : .number v ∈ e.lexemes) := hnumbers _ hv v rfl
  exact ⟨hread, by decide +kernel, parse?_text he (by decide +kernel) (by decide +kernel)
    (by decide +kernel) readWhole hread⟩

end Kirchhoff.Expr
