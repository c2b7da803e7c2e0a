import Kirchhoff.Proofs.Expr.Built

/-!
# What every built expression looks like

Expressions that are built by the operations are regular (`IsBuiltWith.isRegular`), whatever the
numbers and powers: sums and products have at least two operands, no product is a factor of a
product, no product is a coefficient before a single sum, and a power stays as it is when it is
built anew. The factors of a product are put together one by one, and the rule on numbers among
them is kept on the way (`AreRegular`).

The names in a regular expression are whatever is asked of the symbols and functions that stand in
it (`IsRegular.named`).
-/

namespace Kirchhoff.Expr

variable {α : Type} [Scalar α] {e : Expr α}

/-! ### Numbers among factors -/

section

omit [Scalar α]

/-- The operands that are no numbers. -/
def others (fs : List (Expr α)) : List (Expr α) := fs.filter (·.number?.isNone)

@[simp] theorem others_nil : others ([] : List (Expr α)) = [] := rfl

@[simp] theorem others_number (c : α) (fs : List (Expr α)) : others (.number c :: fs) = others fs :=
  rfl

@[simp] theorem others_append (fs gs : List (Expr α)) :
    others (fs ++ gs) = others fs ++ others gs :=
  List.filter_append fs gs

theorem others_singleton {f : Expr α} (h : ∀ v, f ≠ .number v) : others [f] = [f] := by
  cases f with
  | number v => exact absurd rfl (h v)
  | _ => rfl

theorem two_le_length {fs : List (Expr α)} (hnil : fs ≠ []) (hone : ∀ f, fs ≠ [f]) :
    2 ≤ fs.length := by
  match fs with
  | [] => exact absurd rfl hnil
  | [f] => exact absurd rfl (hone f)
  | _ :: _ :: _ => simp

end

/-! ### Regular expressions -/

/-- Sums and products have operands to combine, no product is a factor of a product or consists of
numbers, but for a single sum; powers stay as they are; symbols and the names of functions have the
given properties. -/
inductive IsRegular (S : Symbol → Prop) (N : String → Prop) : Expr α → Prop
  | number (v : α) : IsRegular S N (.number v)
  | symbol {s : Symbol} (h : S s) : IsRegular S N (.symbol s)
  | add {ts : List (Expr α)} (hlen : 2 ≤ ts.length) (h : ∀ t ∈ ts, IsRegular S N t) :
    IsRegular S N (.add ts)
  | mul {fs : List (Expr α)} (hlen : 2 ≤ fs.length) (h : ∀ f ∈ fs, IsRegular S N f)
    (hflat : ∀ f ∈ fs, ∀ gs, f ≠ .mul gs) (hother : others fs ≠ [])
    (hsum : ∀ ts, others fs ≠ [.add ts]) : IsRegular S N (.mul fs)
  | pow {b x : Expr α} (hb : IsRegular S N b) (hx : IsRegular S N x) (h : IsSettled b x) :
    IsRegular S N (.pow b x)
  | call {f : String} {args : List (Expr α)} (hf : N f) (h : ∀ a ∈ args, IsRegular S N a) :
    IsRegular S N (.call f args)

variable {S : Symbol → Prop} {N : String → Prop}

/-- The factors of a regular product on the way, where numbers stand beside other factors, and not
only beside a sum. -/
structure AreRegular (S : Symbol → Prop) (N : String → Prop) (fs : List (Expr α)) : Prop where
  regular : ∀ f ∈ fs, IsRegular S N f
  flat : ∀ f ∈ fs, ∀ gs, f ≠ .mul gs
  other : others fs = [] → fs = []
  sum : ∀ ts, others fs = [.add ts] → fs = [.add ts]

/-- A factor that is no number and no product comes at the end. -/
theorem AreRegular.snoc {fs : List (Expr α)} {f : Expr α} (h : AreRegular S N fs)
    (hf : IsRegular S N f) (hnumber : ∀ v, f ≠ .number v) (hmul : ∀ gs, f ≠ .mul gs) :
    AreRegular S N (fs ++ [f]) where
  regular := List.forall_mem_append.2 ⟨h.regular, by simpa using hf⟩
  flat := List.forall_mem_append.2 ⟨h.flat, by simpa using hmul⟩
  other := by simp [others_singleton hnumber]
  sum ts hts := by
    rw [others_append, others_singleton hnumber, List.append_eq_singleton_iff] at hts
    obtain ⟨hnil, hf⟩ | ⟨-, hf⟩ := hts
    · rw [h.other hnil, List.nil_append, hf]
    · cases hf

/-- The factors of a product are spliced in at the end. -/
theorem AreRegular.splice {fs gs : List (Expr α)} (h : AreRegular S N fs)
    (hgs : IsRegular S N (.mul gs)) : AreRegular S N (fs ++ gs) := by
  obtain _ | _ | _ | ⟨-, hregular, hflat, hother, hsum⟩ := hgs
  refine ⟨List.forall_mem_append.2 ⟨h.regular, hregular⟩,
    List.forall_mem_append.2 ⟨h.flat, hflat⟩, fun hnil => ?_, fun ts hts => ?_⟩
  · rw [others_append] at hnil
    exact absurd (List.append_eq_nil_iff.1 hnil).2 hother
  · rw [others_append, List.append_eq_singleton_iff] at hts
    obtain ⟨-, hts⟩ | ⟨-, hnil⟩ := hts
    · exact absurd hts (hsum ts)
    · exact absurd hnil hother

/-- Factors make a regular product, unless a coefficient would stand before a single sum. -/
theorem AreRegular.ofFactors {c : α} {fs : List (Expr α)} (h : AreRegular S N fs)
    (hsum : ∀ ts, fs ≠ [.add ts]) : IsRegular S N (ofFactors c fs) := by
  have hcons (hne : fs ≠ []) : IsRegular S N (.mul (.number c :: fs)) := by
    refine .mul ?_ (List.forall_mem_cons.2 ⟨.number c, h.regular⟩)
      (List.forall_mem_cons.2 ⟨by simp, h.flat⟩) (fun hnil => hne (h.other hnil))
      fun ts hts => hsum ts (h.sum ts hts)
    simpa using Nat.succ_le_of_lt (List.length_pos_iff.2 hne)
  unfold Expr.ofFactors
  split
  · exact .number c
  · split
    · exact h.regular _ (by simp)
    · exact hcons (by simp)
  · rename_i hnil hone
    split
    · exact .mul (two_le_length hnil hone) h.regular h.flat (fun hother => hnil (h.other hother))
        fun ts hts => hsum ts (h.sum ts hts)
    · exact hcons hnil

/-- A product may lose its coefficient. -/
theorem IsRegular.rest {c : α} {fs : List (Expr α)} (h : IsRegular S N (.mul (.number c :: fs)))
    (hone : ∀ f, fs ≠ [f]) : IsRegular S N (.mul fs) := by
  obtain _ | _ | _ | ⟨hlen, hregular, hflat, hother, hsum⟩ := h
  refine .mul (two_le_length ?_ hone) (List.forall_mem_cons.1 hregular).2
    (List.forall_mem_cons.1 hflat).2 hother hsum
  rintro rfl
  simp at hlen

/-- Whether an expression is regular depends on its operands. -/
theorem hereditary_isRegular (S : Symbol → Prop) (N : String → Prop) :
    Hereditary (IsRegular S N : Expr α → Prop) (AreRegular S N) where
  number := .number
  terms h := by
    cases h with
    | add _ h => exact h
  add := .add
  factors h := by
    cases h with
    | mul _ h => exact h
  rest := .rest
  nil := ⟨by simp, by simp, by simp, by simp⟩
  single h := h.regular _ (by simp)
  snoc h hf hnumber hmul := h.snoc hf hnumber hmul
  splice h hgs := h.splice hgs
  ofFactors h hsum := h.ofFactors hsum
  operands h := by
    cases h with
    | pow hb hx _ => exact ⟨hb, hx⟩
  pow := .pow

/-- Whatever is built is regular, whichever names it has. -/
theorem IsBuiltWith.isRegular {R : Expr α → Expr α → Prop} (h : IsBuiltWith R e) :
    IsRegular (fun _ => True) (fun _ => True) e :=
  h.of_hereditary (hereditary_isRegular _ _) (fun _ => .symbol trivial) fun _ _ => .call trivial

/-- In a regular expression, the names are those of its symbols and of the functions called. -/
theorem IsRegular.named {S' : Symbol → Prop} {N' : String → Prop} (h : IsRegular S N e)
    (hsymbols : ∀ s ∈ e.symbols, S' s) (hfunctions : ∀ f ∈ e.functions, N' f) :
    IsRegular S' N' e := by
  induction h with
  | number v => exact .number v
  | symbol _ => exact .symbol (hsymbols _ (by simp [symbols]))
  | add hlen _ ih =>
    rw [functions_add] at hfunctions
    refine .add hlen fun t ht => ih t ht (fun s hs => ?_) fun f hf => ?_
    · exact hsymbols s (mem_symbolsAll.2 ⟨t, ht, hs⟩)
    · exact hfunctions f (List.mem_flatMap.2 ⟨t, ht, hf⟩)
  | mul hlen _ hflat hother hsum ih =>
    rw [functions_mul] at hfunctions
    refine .mul hlen (fun t ht => ih t ht (fun s hs => ?_) fun f hf => ?_) hflat hother hsum
    · exact hsymbols s (mem_symbolsAll.2 ⟨t, ht, hs⟩)
    · exact hfunctions f (List.mem_flatMap.2 ⟨t, ht, hf⟩)
  | pow _ _ hset ihb ihx =>
    simp only [symbols, List.forall_mem_append] at hsymbols
    rw [functions_pow, List.forall_mem_append] at hfunctions
    exact .pow (ihb hsymbols.1 hfunctions.1) (ihx hsymbols.2 hfunctions.2) hset
  | call _ _ ih =>
    rw [functions_call, List.forall_mem_cons] at hfunctions
    refine .call hfunctions.1 fun t ht => ih t ht (fun s hs => ?_) fun f hf => ?_
    · exact hsymbols s (mem_symbolsAll.2 ⟨t, ht, hs⟩)
    · exact hfunctions.2 f (List.mem_flatMap.2 ⟨t, ht, hf⟩)

end Kirchhoff.Expr
