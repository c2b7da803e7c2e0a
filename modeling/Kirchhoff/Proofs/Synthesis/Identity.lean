import Kirchhoff.Proofs.Synthesis.Fresh

/-!
# Identity of symbols

A symbol is known by its number, and a context hands out numbers upwards, before and after resets.
On the way from an earlier context to a later one the table may lose symbols, but whatever is new in
it has a number that was free before (`Context.Precedes`).

So of two symbols that a run obtains one after the other, it can be read off whether they are the
same: they have the same name, and no reset lies between them (`Context.symbols_of_run`). Without a
reset both are in the table of the later context, where neither numbers nor names occur twice. After
a reset all numbers are greater than those before it (`Context.id_lt_of_reset`).
-/

namespace Kirchhoff.Context

variable {α : Type} {k k' k'' : Context α} {s t : Symbol}

/-! ### Earlier and later contexts -/

/-- What is interned in the later context was interned in the earlier one, or has a number that was
free there. -/
structure Precedes (k k' : Context α) : Prop where
  next_le : k.symbols.next ≤ k'.symbols.next
  mem_or_le : ∀ s ∈ k'.symbols.symbols, s ∈ k.symbols.symbols ∨ k.symbols.next ≤ s.id

theorem Precedes.refl (k : Context α) : k.Precedes k := ⟨le_rfl, fun _ => .inl⟩

theorem Precedes.trans (h : k.Precedes k') (h' : k'.Precedes k'') : k.Precedes k'' where
  next_le := h.next_le.trans h'.next_le
  mem_or_le s hs := (h'.mem_or_le s hs).elim (h.mem_or_le s) fun hle => .inr (h.next_le.trans hle)

theorem precedes_of_symbols (h : k'.symbols = k.symbols) : k.Precedes k' :=
  ⟨by rw [h], fun s hs => .inl (h ▸ hs)⟩

theorem precedes_symbol (name : String) (k : Context α) : k.Precedes (symbol name k).2 := by
  cases h : k.lookup name with
  | some s =>
    rw [symbol_of_lookup_eq_some h]
    exact .refl k
  | none =>
    rw [symbol_of_lookup_eq_none h]
    refine ⟨Nat.le_succ _, fun s hs => ?_⟩
    obtain hs | hs := List.mem_append.1 hs
    · exact .inl hs
    · rw [List.mem_singleton.1 hs]
      exact .inr le_rfl

theorem precedes_freshSymbol (stem : String) (k : Context α) :
    k.Precedes (freshSymbol stem k).2 := by
  let l := (k.labels.fresh stem (k.symbols.symbols.map (·.name))).2
  have hlabels : k.Precedes { k with labels := l } := precedes_of_symbols rfl
  exact hlabels.trans (precedes_symbol _ _)

/-- A reset leaves the timestep alone in the table, with the next number. -/
theorem symbols_reset (k : Context α) :
    k.reset.symbols = ⟨[⟨k.symbols.next, timestepName⟩], k.symbols.next + 1⟩ := rfl

theorem le_id_of_mem_reset (h : s ∈ k.reset.symbols.symbols) : k.symbols.next ≤ s.id := by
  rw [symbols_reset] at h
  rw [List.mem_singleton.1 h]

theorem precedes_reset (k : Context α) : k.Precedes k.reset :=
  ⟨Nat.le_succ _, fun _ hs => .inr (le_id_of_mem_reset hs)⟩

variable [Scalar α] {before between : List (Operation α)}

theorem precedes_operation (op : Operation α) (k : Context α) : k.Precedes (op.run k) := by
  by_cases hop : op = .reset
  · subst hop
    exact precedes_reset k
  · exact Operation.keeps (fun name _ h => h.trans (precedes_symbol name _))
      (fun stem _ h => h.trans (precedes_freshSymbol stem _))
      (fun h hdt => h.trans (precedes_of_symbols (labels_withTimestep hdt).1)) hop (.refl k)

theorem after_append : after (before ++ between) = between.foldl Operation.run (after before) :=
  List.foldl_append

theorem precedes_after (before between : List (Operation α)) :
    (after before).Precedes (after (before ++ between)) := by
  rw [after_append]
  exact List.foldlRecOn (motive := (after before).Precedes) between _ (.refl _)
    fun k h op _ => h.trans (precedes_operation op k)

/-! ### Symbols of two moments -/

/-- After a reset all numbers are new. -/
theorem id_lt_of_reset (hreset : .reset ∈ between) (hs : s ∈ (after before).symbols.symbols)
    (ht : t ∈ (after (before ++ between)).symbols.symbols) : s.id < t.id := by
  obtain ⟨earlier, later, rfl⟩ := List.append_of_mem hreset
  have hbefore : s.id < (after (before ++ earlier)).symbols.next :=
    ((isReached_after before).isSound.isNumbered.lt_next s hs).trans_le
      (precedes_after before earlier).next_le
  refine hbefore.trans_le ?_
  have hreset : after ((before ++ earlier) ++ [.reset]) = (after (before ++ earlier)).reset :=
    after_append
  have hlater := precedes_after ((before ++ earlier) ++ [.reset]) later
  rw [hreset] at hlater
  rw [show before ++ (earlier ++ .reset :: later) = (before ++ earlier) ++ [.reset] ++ later by
    simp] at ht
  obtain ht | ht := hlater.mem_or_le t ht
  · exact le_id_of_mem_reset ht
  · exact (Nat.le_succ _).trans ht

/-- As long as there is no reset, symbols are the same when their names are. -/
theorem beq_iff_of_not_reset (hreset : .reset ∉ between) (hs : s ∈ (after before).symbols.symbols)
    (ht : t ∈ (after (before ++ between)).symbols.symbols) :
    (s == t) = true ↔ s.name = t.name := by
  have hlater : IsSinceReset (before ++ between) (after before) :=
    ⟨before, between, rfl, hreset, rfl⟩
  have hsound := (isReached_after (before ++ between)).isSound
  replace hs := hlater.extends.symbols.subset hs
  rw [Symbol.beq_iff]
  exact ⟨fun hid => congrArg Symbol.name (hsound.isNumbered.eq_of_id_eq hs ht hid),
    fun hname => congrArg Symbol.id (List.inj_on_of_nodup_map hsound.nodup_names hs ht hname)⟩

/-! ### Symbols that are obtained -/

/-- The name that an operation asks for. -/
def Operation.name? : Operation α → Option String
  | .symbol name => some name
  | .potential e => some (e.name ++ ".pot")
  | .flow e => some (e.name ++ ".flw")
  | _ => none

/-- The edge whose potential or flow an operation asks for. -/
def Operation.edge? : Operation α → Option Edge
  | .potential e => some e
  | .flow e => some e
  | _ => none

/-- The symbol that an operation gives out. -/
def Operation.symbol? (k : Context α) : Operation α → Option Symbol
  | .symbol name => some (Context.symbol name k).1
  | .fresh stem => some (freshSymbol stem k).1
  | .potential e => some (Context.potential e k).1
  | .flow e => some (Context.flow e k).1
  | _ => none

/-- The symbol is obtained at the end of some operations. -/
inductive IsObtained : List (Operation α) → Symbol → Prop
  /-- The last operation gives it out. -/
  | given {ops : List (Operation α)} {op : Operation α} {s : Symbol}
      (h : op.symbol? (after ops) = some s) : IsObtained (ops ++ [op]) s
  /-- It is looked up. -/
  | lookup {ops : List (Operation α)} {name : String} {s : Symbol}
      (h : (after ops).lookup name = some s) : IsObtained ops s
  /-- It is the timestep's. -/
  | timestep {ops : List (Operation α)} : IsObtained ops (after ops).timestep.symbol

/-- A symbol that is given out is interned under its name, which is the one that was asked for. -/
theorem Operation.lookup_symbol? {op : Operation α} (h : op.symbol? k = some s) :
    (op.run k).lookup s.name = some s ∧ ∀ name, op.name? = some name → s.name = name := by
  have hinterned (name : String) (k : Context α) :
      (Context.symbol name k).1.name = name ∧
        (Context.symbol name k).2.lookup (Context.symbol name k).1.name =
          some (Context.symbol name k).1 := by
    have hname := (lookup_spec (lookup_symbol name k)).2
    exact ⟨hname, hname.symm ▸ lookup_symbol name k⟩
  cases op with
  | fresh stem =>
    obtain rfl := Option.some.inj h
    exact ⟨(hinterned _ _).2, nofun⟩
  | symbol _ | potential _ | flow _ =>
    obtain rfl := Option.some.inj h
    refine ⟨(hinterned _ _).2, fun name hname => ?_⟩
    obtain rfl := Option.some.inj hname
    exact (hinterned _ _).1
  | _ => cases h

theorem IsObtained.mem {ops : List (Operation α)} (h : IsObtained ops s) :
    s ∈ (after ops).symbols.symbols := by
  cases h with
  | @given ops op _ h =>
    rw [show after (ops ++ [op]) = op.run (after ops) from after_append]
    exact (lookup_spec (Operation.lookup_symbol? h).1).1
  | lookup h => exact (lookup_spec h).1
  | timestep => exact (lookup_spec (isReached_after ops).isSound.timestep).1

/-- Symbols that are obtained at two moments are the same when their names are and no reset lies
between. -/
theorem IsObtained.beq_iff (hs : IsObtained before s) (ht : IsObtained (before ++ between) t) :
    (s == t) = true ↔ s.name = t.name ∧ .reset ∉ between := by
  by_cases hreset : .reset ∈ between
  · have hlt := id_lt_of_reset hreset hs.mem ht.mem
    simp [Symbol.beq_iff, hlt.ne, hreset]
  · rw [beq_iff_of_not_reset hreset hs.mem ht.mem]
    exact (and_iff_left hreset).symm

omit [Scalar α] in
/-- Potentials and flows of edges with different names have different names. -/
theorem Operation.name_ne_of_edge? {op op' : Operation α} {d e : Edge} (hop : op.edge? = some d)
    (hop' : op'.edge? = some e) (hne : d.name ≠ e.name) :
    ∃ name name', op.name? = some name ∧ op'.name? = some name' ∧ name ≠ name' := by
  have hending {op : Operation α} {e : Edge} (hop : op.edge? = some e) :
      ∃ ending : String, ending.toList.length = 4 ∧ op.name? = some (e.name ++ ending) := by
    cases op with
    | potential _ =>
      obtain rfl := Option.some.inj hop
      exact ⟨".pot", rfl, rfl⟩
    | flow _ =>
      obtain rfl := Option.some.inj hop
      exact ⟨".flw", rfl, rfl⟩
    | _ => cases hop
  obtain ⟨ending, hlength, hname⟩ := hending hop
  obtain ⟨ending', hlength', hname'⟩ := hending hop'
  refine ⟨_, _, hname, hname', fun heq => hne ?_⟩
  replace heq := congrArg String.toList heq
  rw [String.toList_append, String.toList_append] at heq
  exact String.toList_inj.1 (List.append_inj_left' heq (hlength.trans hlength'.symm))

/-- Potentials and flows of edges with different names are never the same. -/
theorem Operation.beq_of_edge? {op op' : Operation α} {d e : Edge} (hop : op.edge? = some d)
    (hop' : op'.edge? = some e) (hne : d.name ≠ e.name) (hs : op.symbol? (after before) = some s)
    (ht : op'.symbol? (after (before ++ op :: between)) = some t) : (s == t) = false := by
  obtain ⟨name, name', hname, hname', hnames⟩ := Operation.name_ne_of_edge? hop hop' hne
  have hs' : IsObtained (before ++ [op]) s := .given hs
  have ht' : IsObtained ((before ++ [op]) ++ (between ++ [op'])) t := by
    have hrun : (before ++ [op]) ++ (between ++ [op']) = (before ++ op :: between) ++ [op'] := by
      simp
    rw [hrun]
    exact .given ht
  rw [← Bool.not_eq_true, hs'.beq_iff ht']
  rintro ⟨hsame, -⟩
  rw [(Operation.lookup_symbol? hs).2 name hname,
    (Operation.lookup_symbol? ht).2 name' hname'] at hsame
  exact hnames hsame

/-- **Identity of symbols.** In any run, a symbol that is obtained at one moment and one that is
obtained at a later one are the same exactly when they have the same name and no reset lies between.
Their numbers fit in a word of 64 bits as long as no more than `2 ^ 64` symbols were made. What an
operation gives out has the name that was asked for, so potentials and flows of edges with different
names are never the same. The timestep's symbol is always the one that its name stands for. -/
theorem symbols_of_run (before between : List (Operation α)) :
    (∀ s t, IsObtained before s → IsObtained (before ++ between) t →
      ((s == t) = true ↔ s.name = t.name ∧ .reset ∉ between) ∧
      ((after (before ++ between)).symbols.next ≤ 2 ^ 64 → s.id < 2 ^ 64 ∧ t.id < 2 ^ 64)) ∧
    (∀ (op : Operation α) (s : Symbol) (name : String), op.symbol? (after before) = some s →
      op.name? = some name → s.name = name) ∧
    (∀ (op op' : Operation α) (d e : Edge) (s t : Symbol), op.edge? = some d →
      op'.edge? = some e → d.name ≠ e.name → op.symbol? (after before) = some s →
      op'.symbol? (after (before ++ op :: between)) = some t → (s == t) = false) ∧
    (after before).lookup timestepName = some (after before).timestep.symbol := by
  have hsound (ops : List (Operation α)) := (isReached_after ops).isSound
  refine ⟨fun s t hs ht => ⟨hs.beq_iff ht, fun hnext => ⟨?_, ?_⟩⟩,
    fun op s name h => (Operation.lookup_symbol? h).2 name,
    fun op op' d e s t hop hop' hne hs ht => Operation.beq_of_edge? hop hop' hne hs ht,
    (hsound before).timestep⟩
  · have hlt := (hsound before).isNumbered.lt_next s hs.mem
    exact hlt.trans_le ((precedes_after before between).next_le.trans hnext)
  · exact ((hsound _).isNumbered.lt_next t ht.mem).trans_le hnext

/-- A name that is interned again after a reset gets another symbol, the timestep's too. -/
example :
    let k : Context Rat := after [.symbol "a", .reset]
    let s := (symbol "a" (after (α := Rat) [])).1
    let t := (symbol "a" k).1
    s.name = t.name ∧ (s == t) = false ∧
      ((after (α := Rat) []).timestep.symbol == k.timestep.symbol) = false := by
  decide +kernel

end Kirchhoff.Context
