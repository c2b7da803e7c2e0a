import Mathlib.Data.List.Forall2
import Mathlib.Data.List.Infix
import Mathlib.Data.List.Nodup
import Kirchhoff.Context
import Kirchhoff.Proofs.Symbol.Labels

/-!
# Interning

Giving out symbols only adds to a symbol table, so that the symbol of a name stays what it was, and
no two symbols get the same number. `Interns m Q` says this of a computation `m` on a context,
together with a property `Q` of its result that refers to the symbols of names: it holds in the
context after the computation and in every later one (`Interns.bind`, `Interns.mapM`).

Nothing but interning and issuing labels happens to the context of a computation (`IsGrowing`), and
this keeps a context sound (`Grows.isSound`): no two symbols have the same number or the same name,
and the timestep's symbol is the one that its name stands for.
-/

namespace Kirchhoff

/-! ### Numbers of symbols -/

namespace SymbolTable

variable {t : SymbolTable} {name : String} {r s : Symbol}

/-- The symbols have different numbers, all below the next free one. -/
structure IsNumbered (t : SymbolTable) : Prop where
  lt_next : ∀ s ∈ t.symbols, s.id < t.next
  nodup : (t.symbols.map (·.id)).Nodup

theorem isNumbered_empty : empty.IsNumbered := ⟨by simp [empty], by simp [empty]⟩

/-- A name that is new gets the next number. -/
theorem IsNumbered.intern (h : t.IsNumbered) (name : String) : (t.intern name).2.IsNumbered := by
  unfold SymbolTable.intern
  cases t.get? name with
  | some s => exact h
  | none =>
    refine ⟨fun s hs => ?_, ?_⟩
    · obtain hs | hs := List.mem_append.1 hs
      · exact Nat.lt_succ_of_lt (h.lt_next s hs)
      · rw [List.mem_singleton.1 hs]
        exact Nat.lt_succ_self _
    · rw [List.map_append, List.nodup_append]
      refine ⟨h.nodup, List.nodup_singleton _, fun i hi j hj => ?_⟩
      obtain ⟨s, hs, rfl⟩ := List.mem_map.1 hi
      rw [List.mem_singleton.1 hj]
      exact (h.lt_next s hs).ne

/-- A name is looked up among the symbols. -/
theorem get?_spec (h : t.get? name = some s) : s ∈ t.symbols ∧ s.name = name :=
  ⟨List.mem_of_find?_eq_some h, by simpa using List.find?_some h⟩

/-- Symbols are told apart by their numbers. -/
theorem IsNumbered.eq_of_id_eq (h : t.IsNumbered) (hr : r ∈ t.symbols) (hs : s ∈ t.symbols)
    (hid : r.id = s.id) : r = s :=
  List.inj_on_of_nodup_map h.nodup hr hs hid

end SymbolTable

namespace Context

variable {α β γ : Type} {k k' k'' : Context α} {name : String}

theorem isNumbered_new : (new : Context α).symbols.IsNumbered :=
  SymbolTable.isNumbered_empty.intern timestepName

/-! ### Later contexts -/

/-- The later context has the symbols of the earlier one and perhaps more, with numbers of their
own. -/
structure Extends (k k' : Context α) : Prop where
  symbols : k.symbols.symbols <+: k'.symbols.symbols
  isNumbered : k.symbols.IsNumbered → k'.symbols.IsNumbered

theorem Extends.refl (k : Context α) : k.Extends k := ⟨List.prefix_refl _, id⟩

theorem Extends.trans (h : k.Extends k') (h' : k'.Extends k'') : k.Extends k'' :=
  ⟨h.symbols.trans h'.symbols, h'.isNumbered ∘ h.isNumbered⟩

/-- A name keeps its symbol. -/
theorem Extends.lookup (h : k.Extends k') {s : Symbol} (hs : k.lookup name = some s) :
    k'.lookup name = some s := by
  obtain ⟨rest, hrest⟩ := h.symbols
  rw [Context.lookup, SymbolTable.get?] at hs
  rw [Context.lookup, SymbolTable.get?, ← hrest, List.find?_append, hs]
  rfl

/-! ### Computations that intern -/

/-- The computation only adds symbols, and its result has a property in every later context. -/
def Interns (m : StateM (Context α) β) (Q : Context α → β → Prop) : Prop :=
  ∀ k, k.Extends (m k).2 ∧ ∀ k', (m k).2.Extends k' → Q k' (m k).1

/-- The property that a result has may be weakened. -/
theorem Interns.imp {m : StateM (Context α) β} {Q R : Context α → β → Prop} (h : Interns m Q)
    (hQR : ∀ k b, Q k b → R k b) : Interns m R :=
  fun k => ⟨(h k).1, fun k' hk' => hQR k' _ ((h k).2 k' hk')⟩

theorem Interns.pure {b : β} {Q : Context α → β → Prop} (h : ∀ k, Q k b) :
    Interns (pure b) Q :=
  fun k => ⟨Extends.refl k, fun k' _ => h k'⟩

/-- What holds of the first result may be assumed of the second, in every later context. -/
theorem Interns.bind {m : StateM (Context α) β} {f : β → StateM (Context α) γ}
    {Q : Context α → β → Prop} {R : Context α → γ → Prop} (hm : Interns m Q)
    (hf : ∀ b, Interns (f b) fun k c => Q k b → R k c) : Interns (m >>= f) R := by
  intro k
  obtain ⟨hext, hQ⟩ := hm k
  obtain ⟨hext', hR⟩ := hf (m k).1 (m k).2
  exact ⟨hext.trans hext', fun k' hk' => hR k' hk' (hQ k' (hext'.trans hk'))⟩

/-- Interning for every member of a list gives each result its property. -/
theorem Interns.mapM {f : β → StateM (Context α) γ} {R : Context α → β → γ → Prop}
    (hf : ∀ b, Interns (f b) fun k c => R k b c) (bs : List β) :
    Interns (bs.mapM f) fun k cs => List.Forall₂ (R k) bs cs := by
  induction bs with
  | nil => exact Interns.pure fun _ => List.Forall₂.nil
  | cons b bs ih =>
    rw [List.mapM_cons]
    exact (hf b).bind fun c => ih.bind fun cs => Interns.pure fun k hcs hc => .cons hc hcs

/-- The symbol that is given out is the symbol of the name from then on. -/
theorem interns_symbol (name : String) :
    Interns (α := α) (symbol name) fun k s => k.lookup name = some s := by
  intro k
  have hextends : k.Extends (symbol name k).2 := by
    refine ⟨?_, fun h => h.intern name⟩
    unfold symbol SymbolTable.intern
    cases k.symbols.get? name with
    | some s => exact List.prefix_refl _
    | none => exact List.prefix_append _ _
  have hlookup : (symbol name k).2.lookup name = some (symbol name k).1 := by
    unfold symbol Context.lookup SymbolTable.intern
    cases h : k.symbols.get? name with
    | some s => exact h
    | none =>
      rw [SymbolTable.get?] at h
      simp [SymbolTable.get?, List.find?_append, h]
  exact ⟨hextends, fun k' hk' => hk'.lookup hlookup⟩

/-! ### Sound contexts -/

/-- Symbols are told apart by their numbers and by their names, and the name of the timestep stands
for its symbol. -/
structure IsSound (k : Context α) : Prop where
  isNumbered : k.symbols.IsNumbered
  nodup_names : (k.symbols.symbols.map (·.name)).Nodup
  timestep : k.lookup timestepName = some k.timestep.symbol

/-- A name stands for a symbol that has it. -/
theorem lookup_spec {s : Symbol} (h : k.lookup name = some s) :
    s ∈ k.symbols.symbols ∧ s.name = name :=
  SymbolTable.get?_spec h

theorem lookup_eq_none_iff : k.lookup name = none ↔ name ∉ k.symbols.symbols.map (·.name) := by
  simp [Context.lookup, SymbolTable.get?]

/-- An interned symbol is the one that its name stands for. -/
theorem IsSound.lookup_name (h : k.IsSound) {s : Symbol} (hs : s ∈ k.symbols.symbols) :
    k.lookup s.name = some s := by
  cases hlookup : k.lookup s.name with
  | none => exact absurd (List.mem_map_of_mem hs) (lookup_eq_none_iff.1 hlookup)
  | some r =>
    obtain ⟨hr, hname⟩ := lookup_spec hlookup
    rw [List.inj_on_of_nodup_map h.nodup_names hr hs hname]

theorem isSound_new : (new : Context α).IsSound :=
  ⟨isNumbered_new, by simp [new, SymbolTable.intern, SymbolTable.get?, SymbolTable.empty], by
    simp [new, SymbolTable.intern, SymbolTable.get?, SymbolTable.empty, Context.lookup]⟩

/-- A name that is not interned gets the next number. -/
theorem symbol_of_lookup_eq_none (h : k.lookup name = none) :
    symbol name k = (⟨k.symbols.next, name⟩, { k with
      symbols := ⟨k.symbols.symbols ++ [⟨k.symbols.next, name⟩], k.symbols.next + 1⟩ }) := by
  rw [Context.lookup] at h
  simp [symbol, SymbolTable.intern, h]

/-- A name that is known keeps its symbol, and the context stays as it is. -/
theorem symbol_of_lookup_eq_some {s : Symbol} (h : k.lookup name = some s) :
    symbol name k = (s, k) := by
  rw [Context.lookup] at h
  simp [symbol, SymbolTable.intern, h]

theorem next_le_symbol (name : String) (k : Context α) :
    k.symbols.next ≤ (symbol name k).2.symbols.next := by
  cases h : k.lookup name with
  | none =>
    rw [symbol_of_lookup_eq_none h]
    exact Nat.le_succ _
  | some s =>
    rw [symbol_of_lookup_eq_some h]

/-- A name that has been interned stands for its symbol. -/
theorem lookup_symbol (name : String) (k : Context α) :
    (symbol name k).2.lookup name = some (symbol name k).1 :=
  (interns_symbol name k).2 _ (Extends.refl _)

/-- Interning keeps names and numbers apart. -/
theorem IsSound.symbol (h : k.IsSound) (name : String) : (symbol name k).2.IsSound := by
  cases hlookup : k.lookup name with
  | some s =>
    rw [symbol_of_lookup_eq_some hlookup]
    exact h
  | none =>
    refine ⟨h.isNumbered.intern name, ?_, (interns_symbol name k).1.lookup h.timestep⟩
    rw [symbol_of_lookup_eq_none hlookup, List.map_append, List.map_singleton]
    exact (List.nodup_append_comm.1 (List.nodup_cons.2
      ⟨lookup_eq_none_iff.1 hlookup, h.nodup_names⟩ : ([name] ++ _).Nodup))

/-- A timestep changes no symbols. -/
theorem IsSound.withTimestep [Scalar α] (h : k.IsSound) {dt : α}
    (hdt : k.withTimestep dt = .ok k') : k'.IsSound := by
  unfold Context.withTimestep at hdt
  split at hdt
  · cases hdt
  · obtain rfl := Except.ok.inj hdt
    exact ⟨h.isNumbered, h.nodup_names, h.timestep⟩

theorem isNumbered_clear {t : SymbolTable} : t.clear.IsNumbered :=
  ⟨by simp [SymbolTable.clear], by simp [SymbolTable.clear]⟩

/-- After a reset only the timestep is interned. -/
theorem isSound_reset (k : Context α) : k.reset.IsSound :=
  ⟨isNumbered_clear.intern timestepName,
    by simp [reset, SymbolTable.intern, SymbolTable.get?, SymbolTable.clear],
    by simp [reset, SymbolTable.intern, SymbolTable.get?, SymbolTable.clear, Context.lookup]⟩

/-! ### Growing contexts -/

/-- The later context comes from the earlier one by interning names and issuing labels. -/
inductive Grows (k : Context α) : Context α → Prop
  | refl : Grows k k
  | symbol {k' : Context α} (h : Grows k k') (name : String) : Grows k (symbol name k').2
  | labels {k' : Context α} (h : Grows k k') (l : Labels) : Grows k { k' with labels := l }

theorem Grows.trans (h : k.Grows k') (h' : k'.Grows k'') : k.Grows k'' := by
  induction h' with
  | refl => exact h
  | symbol _ name ih => exact ih.symbol name
  | labels _ l ih => exact ih.labels l

theorem Grows.extends (h : k.Grows k') : k.Extends k' := by
  induction h with
  | refl => exact .refl k
  | symbol _ name ih => exact ih.trans (interns_symbol name _).1
  | labels _ l ih => exact ⟨ih.symbols, ih.isNumbered⟩

theorem Grows.isSound (h : k.Grows k') (hk : k.IsSound) : k'.IsSound := by
  induction h with
  | refl => exact hk
  | symbol _ name ih => exact ih.symbol name
  | labels _ l ih => exact ⟨ih.isNumbered, ih.nodup_names, ih.timestep⟩

theorem Grows.timestep (h : k.Grows k') : k'.timestep = k.timestep := by
  induction h with
  | refl => rfl
  | symbol _ name ih => exact ih
  | labels _ l ih => exact ih

theorem Grows.next_le (h : k.Grows k') : k.symbols.next ≤ k'.symbols.next := by
  induction h with
  | refl => exact le_rfl
  | symbol _ name ih => exact ih.trans (next_le_symbol name _)
  | labels _ l ih => exact ih

theorem Grows.lookup (h : k.Grows k') {s : Symbol} (hs : k.lookup name = some s) :
    k'.lookup name = some s := h.extends.lookup hs

theorem Grows.mem (h : k.Grows k') {s : Symbol} (hs : s ∈ k.symbols.symbols) :
    s ∈ k'.symbols.symbols := h.extends.symbols.subset hs

/-- The computation keeps a property of contexts. -/
def Keeps (I : Context α → Prop) (m : StateM (Context α) β) : Prop := ∀ k, I k → I (m k).2

theorem keeps_pure {I : Context α → Prop} (b : β) : Keeps I (pure b) := fun _ h => h

/-- A property that every step keeps is kept by all. -/
theorem Keeps.bind {I : Context α → Prop} {m : StateM (Context α) β}
    {f : β → StateM (Context α) γ} (hm : Keeps I m) (hf : ∀ b, Keeps I (f b)) :
    Keeps I (m >>= f) :=
  fun k h => hf (m k).1 (m k).2 (hm k h)

theorem Keeps.mapM {I : Context α → Prop} {f : β → StateM (Context α) γ}
    (hf : ∀ b, Keeps I (f b)) (bs : List β) : Keeps I (bs.mapM f) := by
  induction bs with
  | nil => exact keeps_pure []
  | cons b bs ih =>
    rw [List.mapM_cons]
    exact (hf b).bind fun c => ih.bind fun cs => keeps_pure _

/-- All that the computation does to the context is interning names and issuing labels. -/
def IsGrowing (m : StateM (Context α) β) : Prop :=
  ∀ k : Context α, k.Grows (m k).2

theorem isGrowing_symbol (name : String) : IsGrowing (α := α) (symbol name) :=
  fun _ => Grows.refl.symbol name

/-- A fresh symbol is interned after its labels were issued. -/
theorem isGrowing_freshSymbol (stem : String) : IsGrowing (α := α) (freshSymbol stem) :=
  fun _ => (Grows.refl.labels _).symbol _

/-- A fresh symbol has the next number, and for its name a label of its stem that was not interned
before. -/
theorem freshSymbol_spec (stem : String) (k : Context α) :
    ∃ n l, k.lookup (Labels.label stem n) = none ∧
      freshSymbol stem k = (⟨k.symbols.next, Labels.label stem n⟩, { k with
        symbols := ⟨k.symbols.symbols ++ [⟨k.symbols.next, Labels.label stem n⟩],
          k.symbols.next + 1⟩
        labels := l }) := by
  obtain ⟨n, hn⟩ := Labels.exists_label_of_fresh k.labels stem (k.symbols.symbols.map (·.name))
  have hfree := Labels.isFree_iff.1 (Labels.fresh_isFree k.labels stem
    (k.symbols.symbols.map (·.name)))
  rw [hn] at hfree
  have hlookup : k.lookup (Labels.label stem n) = none := lookup_eq_none_iff.2 hfree.2
  refine ⟨n, (k.labels.fresh stem (k.symbols.symbols.map (·.name))).2, hlookup, ?_⟩
  have heq : freshSymbol stem k = symbol (k.labels.fresh stem (k.symbols.symbols.map (·.name))).1
      { k with labels := (k.labels.fresh stem (k.symbols.symbols.map (·.name))).2 } := rfl
  rw [heq, hn]
  exact symbol_of_lookup_eq_none hlookup

end Context

end Kirchhoff
