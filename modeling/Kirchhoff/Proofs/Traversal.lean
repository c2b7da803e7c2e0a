import Mathlib.Data.List.Forall2

/-!
# Traversals of lists

What a traversal of a list with an effect says once it succeeds: every element of the result comes
from one element of the list, and a state that is threaded through keeps an invariant.
-/

namespace Kirchhoff

variable {ε β γ σ : Type} {bs : List β} {cs : List γ}

/-! ### Related lists -/

theorem exists_left_of_forall₂ {R : β → γ → Prop} (h : List.Forall₂ R bs cs) {c : γ}
    (hc : c ∈ cs) : ∃ b ∈ bs, R b c := by
  induction h with
  | nil => cases hc
  | cons hbc _ ih =>
    obtain rfl | hc := List.mem_cons.1 hc
    · exact ⟨_, List.mem_cons_self, hbc⟩
    · obtain ⟨b, hb, hR⟩ := ih hc
      exact ⟨b, List.mem_cons_of_mem _ hb, hR⟩

theorem exists_right_of_forall₂ {R : β → γ → Prop} (h : List.Forall₂ R bs cs) {b : β}
    (hb : b ∈ bs) : ∃ c ∈ cs, R b c :=
  exists_left_of_forall₂ (R := flip R) h.flip hb

/-- What the relation ensures holds of the whole list. -/
theorem forall_mem_of_forall₂ {R : β → γ → Prop} {Q : γ → Prop} (h : List.Forall₂ R bs cs)
    (hR : ∀ b c, R b c → Q c) : ∀ c ∈ cs, Q c := by
  intro c hc
  obtain ⟨b, -, hbc⟩ := exists_left_of_forall₂ h hc
  exact hR b c hbc

/-- What all elements of one list have says what all those related to them have. -/
theorem forall_mem_iff_of_forall₂ {R : β → γ → Prop} {P : β → Prop} {Q : γ → Prop}
    (h : List.Forall₂ R bs cs) (hR : ∀ b ∈ bs, ∀ c, R b c → (P b ↔ Q c)) :
    (∀ b ∈ bs, P b) ↔ ∀ c ∈ cs, Q c := by
  constructor
  · intro hP c hc
    obtain ⟨b, hb, hbc⟩ := exists_left_of_forall₂ h hc
    exact (hR b hb c hbc).1 (hP b hb)
  · intro hQ b hb
    obtain ⟨c, hc, hbc⟩ := exists_right_of_forall₂ h hb
    exact (hR b hb c hbc).2 (hQ c hc)

/-- An order of the elements of one list is one of those that they are related to. -/
theorem pairwise_of_forall₂ {R : β → γ → Prop} {S : γ → γ → Prop} (h : List.Forall₂ R bs cs)
    (hcs : cs.Pairwise S) :
    bs.Pairwise fun b b' => ∃ c c', R b c ∧ R b' c' ∧ S c c' := by
  induction h with
  | nil => exact .nil
  | cons hbc hrest ih =>
    obtain ⟨hc, hcs⟩ := List.pairwise_cons.1 hcs
    refine .cons (fun b' hb' => ?_) (ih hcs)
    obtain ⟨c', hc', hR⟩ := exists_right_of_forall₂ hrest hb'
    exact ⟨_, c', hbc, hR, hc c' hc'⟩

theorem map_concat_eq {φ : β → γ} {b : β} {c : γ} (h : bs.map φ = cs) (hb : φ b = c) :
    (bs ++ [b]).map φ = cs ++ [c] := by
  rw [List.map_append, h, List.map_singleton, hb]

/-- Two lists that are related to the same list by relations that agree up to a map. -/
theorem map_eq_of_forall₂ {R : γ → β → Prop} {R' : γ → σ → Prop} {φ : β → σ} {ds : List σ}
    (h : List.Forall₂ R cs bs) (h' : List.Forall₂ R' cs ds)
    (hφ : ∀ c b d, R c b → R' c d → φ b = d) : bs.map φ = ds := by
  induction h generalizing ds with
  | nil =>
    cases h'
    rfl
  | cons hcb _ ih =>
    cases h' with
    | cons hcd hrest => rw [List.map_cons, hφ _ _ _ hcb hcd, ih hrest]

/-! ### Traversals that succeed -/

/-- A traversal that succeeds has a result for every member. -/
theorem forall₂_of_mapM_eq_some {f : β → Option γ} (h : bs.mapM f = some cs) :
    List.Forall₂ (fun b c => f b = some c) bs cs := by
  induction bs generalizing cs with
  | nil =>
    obtain rfl : [] = cs := by simpa using h
    exact .nil
  | cons b bs ih =>
    simp only [List.mapM_cons, bind, Option.bind_eq_some_iff, pure, Option.some.injEq] at h
    obtain ⟨c, hc, cs, hcs, rfl⟩ := h
    exact .cons hc (ih hcs)

theorem forall₂_of_mapM_eq_ok {f : β → Except ε γ} (h : bs.mapM f = .ok cs) :
    List.Forall₂ (fun b c => f b = .ok c) bs cs := by
  induction bs generalizing cs with
  | nil =>
    obtain rfl : [] = cs := by simpa [pure, Except.pure] using h
    exact .nil
  | cons b bs ih =>
    rw [List.mapM_cons] at h
    cases hb : f b with
    | error e => simp [hb, bind, Except.bind] at h
    | ok c =>
      cases hbs : bs.mapM f with
      | error e => simp [hb, hbs, bind, Except.bind] at h
      | ok cs' =>
        obtain rfl : c :: cs' = cs := by
          simpa [hb, hbs, bind, Except.bind, pure, Except.pure] using h
        exact .cons hb (ih hbs)

/-- What holds of every element and its result relates the lists. -/
theorem forall₂_imp_of_mapM_eq_some {f : β → Option γ} {R : β → γ → Prop}
    (hf : ∀ b ∈ bs, ∀ c, f b = some c → R b c) (h : bs.mapM f = some cs) :
    List.Forall₂ R bs cs := by
  have hall := (List.forall₂_and_left bs cs).2 ⟨hf, forall₂_of_mapM_eq_some h⟩
  exact hall.imp fun b c ⟨hb, hc⟩ => hb c hc

theorem forall_mem_of_mapM_eq_some {f : β → Option γ} {Q : γ → Prop}
    (hf : ∀ b ∈ bs, ∀ c, f b = some c → Q c) (h : bs.mapM f = some cs) : ∀ c ∈ cs, Q c :=
  forall_mem_of_forall₂ (forall₂_imp_of_mapM_eq_some hf h) fun _ _ hc => hc

/-- A traversal that leaves each element as it is leaves the list as it is. -/
theorem eq_of_mapM_eq_some {f : β → Option β} {ds : List β}
    (hf : ∀ b ∈ bs, ∀ c, f b = some c → b = c) (h : bs.mapM f = some ds) : bs = ds := by
  simpa using forall₂_imp_of_mapM_eq_some hf h

/-- A fold that succeeds keeps what every step keeps. -/
theorem invariant_of_foldlM {f : σ → β → Option σ} {Q : σ → Prop} {s s' : σ}
    (hf : ∀ b ∈ bs, ∀ s s', f s b = some s' → Q s → Q s') (h : bs.foldlM f s = some s')
    (hs : Q s) : Q s' := by
  induction bs generalizing s with
  | nil =>
    obtain rfl : s = s' := by simpa using h
    exact hs
  | cons b bs ih =>
    simp only [List.foldlM_cons, bind, Option.bind_eq_some_iff] at h
    obtain ⟨u, hu, h⟩ := h
    obtain ⟨hb, hbs⟩ := List.forall_mem_cons.1 hf
    exact ih hbs h (hb s u hu hs)

/-- A traversal succeeds if every call does. -/
theorem isSome_mapM {f : β → Option γ} (h : ∀ b ∈ bs, (f b).isSome) : (bs.mapM f).isSome := by
  induction bs with
  | nil => rfl
  | cons b bs ih =>
    obtain ⟨hb, hbs⟩ := List.forall_mem_cons.1 h
    obtain ⟨c, hc⟩ := Option.isSome_iff_exists.1 hb
    obtain ⟨cs, hcs⟩ := Option.isSome_iff_exists.1 (ih hbs)
    simp [List.mapM_cons, hc, hcs]

theorem exists_mapM_eq_ok {f : β → Except ε γ} (h : ∀ b ∈ bs, ∃ c, f b = .ok c) :
    ∃ cs, bs.mapM f = .ok cs := by
  induction bs with
  | nil => exact ⟨[], rfl⟩
  | cons b bs ih =>
    obtain ⟨⟨c, hc⟩, hbs⟩ := List.forall_mem_cons.1 h
    obtain ⟨cs, hcs⟩ := ih hbs
    exact ⟨c :: cs, by rw [List.mapM_cons, hc, hcs]; rfl⟩

/-- A traversal succeeds, with related results, if every call does. -/
theorem exists_forall₂_mapM {f : β → Option γ} {R : β → γ → Prop}
    (h : ∀ b ∈ bs, ∃ c, f b = some c ∧ R b c) :
    ∃ cs, bs.mapM f = some cs ∧ List.Forall₂ R bs cs := by
  induction bs with
  | nil => exact ⟨[], rfl, .nil⟩
  | cons b bs ih =>
    obtain ⟨⟨c, hc, hR⟩, hbs⟩ := List.forall_mem_cons.1 h
    obtain ⟨cs, hcs, hall⟩ := ih hbs
    exact ⟨c :: cs, by simp [List.mapM_cons, hc, hcs], .cons hR hall⟩

theorem isSome_foldlM {f : σ → β → Option σ} {s : σ} (h : ∀ b ∈ bs, ∀ s, (f s b).isSome) :
    (bs.foldlM f s).isSome := by
  induction bs generalizing s with
  | nil => rfl
  | cons b bs ih =>
    obtain ⟨hb, hbs⟩ := List.forall_mem_cons.1 h
    obtain ⟨s', hs'⟩ := Option.isSome_iff_exists.1 (hb s)
    simpa [List.foldlM_cons, hs'] using ih hbs

theorem eq_ok_getD {y : Except ε (List β)} (h : y.toOption.isSome) :
    y = .ok (y.toOption.getD []) := by
  cases y with
  | error e => cases h
  | ok bs => rfl

/-! ### Traversals side by side -/

section

variable {β' γ' σ' : Type} {φ : β → β'} {ψ : γ → γ'} {χ : σ → σ'}

/-- A traversal of a mapped list, with an effect that commutes with the maps. -/
theorem mapM_map_eq {f : β → Option γ} {f' : β' → Option γ'} (h : ∀ b, f' (φ b) = (f b).map ψ)
    (bs : List β) : (bs.map φ).mapM f' = (bs.mapM f).map (List.map ψ) := by
  induction bs with
  | nil => rfl
  | cons b bs ih =>
    rw [List.map_cons, List.mapM_cons, List.mapM_cons, h, ih]
    cases f b with
    | none => rfl
    | some c =>
      cases bs.mapM f with
      | none => rfl
      | some cs => rfl

theorem foldlM_map_eq {f : σ → β → Option σ} {f' : σ' → β' → Option σ'}
    (h : ∀ s b, f' (χ s) (φ b) = (f s b).map χ) (bs : List β) (s : σ) :
    (bs.map φ).foldlM f' (χ s) = (bs.foldlM f s).map χ := by
  induction bs generalizing s with
  | nil => rfl
  | cons b bs ih =>
    rw [List.map_cons, List.foldlM_cons, List.foldlM_cons, h]
    cases f s b with
    | none => rfl
    | some u => exact ih u

end

end Kirchhoff
