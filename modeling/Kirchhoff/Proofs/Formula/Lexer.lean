import Mathlib.Data.List.Chain
import Kirchhoff.Expr.Print
import Kirchhoff.Proofs.Formula.Grammar

/-!
# The tokens of a text

A text is read from left to right, by the rule that a word goes on as long as it can: `scan` has the
word that is being read at hand. How numerals are read as numbers is a parameter.

The lexemes that an expression is written with have a token each, and the tokens of their text are
these tokens (`tokens?_join`), where no two words stand side by side, names are identifiers and
numerals are read as the numbers that they are written for. The first two conditions hold of
whatever the grammar derives (`Derives.wellSpelled`).
-/

namespace Kirchhoff

namespace Formula

/-! ### Words -/

/-- The character goes on with the word that is being read. A sign does so after the letter in front
of the exponent of a numeral. -/
def continues : List Char → Char → Bool
  | [], c => c.isAlphanum || c == '_'
  | w :: ws, c => isWordChar c ||
    (w.isDigit && (c == '+' || c == '-') && ((w :: ws).getLast? == 'e' || (w :: ws).getLast? == 'E'))

/-- All of the characters go on with the word. -/
def keeps : List Char → List Char → Bool
  | _, [] => true
  | w, c :: cs => continues w c && keeps (w ++ [c]) cs

/-- A numeral is one word that starts and ends with a digit. -/
def isNumeral (s : String) : Bool :=
  match s.toList with
  | [] => false
  | c :: cs => c.isDigit && keeps [c] cs && ((c :: cs).getLast?.any Char.isDigit)

/-! ### Reading a text -/

/-- What a character outside of words stands for. A blank stands for nothing. -/
def mark? : Char → Option (List Token)
  | ' ' => some []
  | '+' => some [.plus]
  | '-' => some [.minus]
  | '*' => some [.times]
  | '/' => some [.over]
  | '(' => some [.opening]
  | ')' => some [.closing]
  | ',' => some [.comma]
  | _ => none

variable (read : String → Option Rat)

/-- The token of a word: a numeral starts with a digit. No word has no token. -/
def word? : List Char → Option (List Token)
  | [] => some []
  | c :: cs =>
    if c.isDigit then (read (.ofList (c :: cs))).map fun v => [.number v]
    else some [.name (.ofList (c :: cs))]

/-- Reads on, with the word that is being read. -/
def scan : List Char → List Char → Option (List Token)
  | w, [] => word? read w
  | w, c :: cs =>
    if continues w c then scan (w ++ [c]) cs
    else do return (← word? read w) ++ (← mark? c) ++ (← scan [] cs)

/-- The tokens of a text. -/
def tokens? (text : String) : Option (List Token) := scan read [] text.toList

/-! ### Reading words and marks -/

variable {read} {w : List Char}

/-- Characters that keep a word open are read into it. -/
theorem scan_append_of_keeps {cs rest : List Char} (h : keeps w cs) :
    scan read w (cs ++ rest) = scan read (w ++ cs) rest := by
  induction cs generalizing w with
  | nil => simp
  | cons c cs ih =>
    simp only [keeps, Bool.and_eq_true] at h
    rw [List.cons_append, scan, if_pos h.1, ih h.2, List.append_assoc, List.singleton_append]

/-- The word ends at every character that does not belong to words. -/
def IsClosed (w : List Char) : Prop := ∀ c, (mark? c).isSome → continues w c = false

/-- A mark closes the word before it. -/
theorem scan_mark (h : IsClosed w) {c : Char} {cs : List Char} {ts us : List Token}
    (hw : word? read w = some ts) (hc : mark? c = some us) :
    scan read w (c :: cs) = (scan read [] cs).map fun vs => ts ++ us ++ vs := by
  have hclosed : continues w c = false := h c (by simp [hc])
  rw [scan, hclosed]
  cases scan read [] cs <;> simp [hw, hc]

theorem isWordChar_of_mark? {c : Char} (h : (mark? c).isSome) : isWordChar c = false := by
  unfold mark? at h
  split at h <;> first | rfl | cases h

theorem isClosed_nil : IsClosed [] := by
  intro c hc
  have := isWordChar_of_mark? hc
  simp_all [isWordChar, continues]

/-- The characters are one word, which has the token. -/
structure Spells (read : String → Option Rat) (w : List Char) (t : Token) : Prop where
  keeps : keeps [] w
  closed : IsClosed w
  token : word? read w = some [t]

theorem keeps_of_all {cs : List Char} (hw : w ≠ []) (h : cs.all isWordChar) : keeps w cs := by
  induction cs generalizing w with
  | nil => rfl
  | cons c cs ih =>
    rw [List.all_cons, Bool.and_eq_true] at h
    obtain ⟨d, ds, rfl⟩ := List.exists_cons_of_ne_nil hw
    simpa [keeps, continues, h.1] using ih (List.cons_ne_nil d (ds ++ [c])) h.2

theorem isDigit_of_isAlpha {c : Char} (h : c.isAlpha) : c.isDigit = false := by
  rw [← Bool.not_eq_true]
  intro hdigit
  have hletter : (decide (c.val ≥ 'A'.val ∧ c.val ≤ 'Z'.val) ||
    decide (c.val ≥ 'a'.val) && decide (c.val ≤ 'z'.val)) = true := h
  simp only [Char.isDigit, Bool.or_eq_true, Bool.and_eq_true, decide_eq_true_eq, ge_iff_le,
    UInt32.le_iff_toNat_le] at hletter hdigit
  have : 'A'.val.toNat = 65 := rfl
  have : 'a'.val.toNat = 97 := rfl
  have : '9'.val.toNat = 57 := rfl
  omega

/-- A name is read as a name. -/
theorem spells_name {n : String} (h : isName n) : Spells read n.toList (.name n) := by
  unfold isName at h
  split at h
  · cases h
  · rename_i c cs hn
    simp only [Bool.and_eq_true] at h
    have hdigit : c.isDigit = false := by
      simp only [Bool.or_eq_true, beq_iff_eq] at h
      obtain ⟨hc | rfl, -⟩ := h
      · exact isDigit_of_isAlpha hc
      · rfl
    rw [hn]
    refine ⟨?_, fun d hd => ?_, ?_⟩
    · have hstart : continues [] c = true := by
        simp only [continues, Char.isAlphanum, Bool.or_eq_true] at h ⊢
        exact h.1.imp_left .inl
      rw [keeps, hstart, Bool.true_and]
      exact keeps_of_all (by simp) h.2
    · simp [continues, isWordChar_of_mark? hd, hdigit]
    · rw [word?, hdigit, ← hn, String.ofList_toList]
      rfl

theorem spells_numeral {s : String} {v : Rat} (h : isNumeral s) (hv : read s = some v) :
    Spells read s.toList (.number v) := by
  unfold isNumeral at h
  split at h
  · cases h
  · rename_i c cs hs
    simp only [Bool.and_eq_true] at h
    obtain ⟨⟨hdigit, hkeeps⟩, hlast⟩ := h
    rw [hs]
    refine ⟨?_, fun d hd => ?_, ?_⟩
    · simpa [keeps, continues, Char.isAlphanum, hdigit] using hkeeps
    · obtain ⟨l, hl, hl'⟩ := (Option.any_eq_true _ _).1 hlast
      have he : l ≠ 'e' ∧ l ≠ 'E' := by
        constructor <;> rintro rfl <;> cases hl'
      simp [continues, isWordChar_of_mark? hd, hl, he]
    · rw [word?, if_pos hdigit, ← hs, String.ofList_toList, hv]
      rfl

/-! ### Tokens in a row -/

/-- The token is a word. -/
def Token.isWord : Token → Bool
  | .number _ => true
  | .name _ => true
  | _ => false

/-- Two tokens of which one is no word. -/
def Apart (t u : Token) : Prop := t.isWord → u.isWord = false

/-- No two words stand side by side, and names are identifiers. -/
structure WellSpelled (ts : List Token) : Prop where
  apart : ts.IsChain Apart
  names : ∀ n, .name n ∈ ts → isName n

theorem wellSpelled_singleton {t : Token} (h : ∀ n, t = .name n → isName n) : WellSpelled [t] :=
  ⟨List.isChain_singleton t, fun n hn => h n (List.mem_singleton.1 hn).symm⟩

/-- A token that is no word may stand between any others. -/
theorem WellSpelled.append {ts us : List Token} {t : Token} (hts : WellSpelled ts)
    (hus : WellSpelled us) (ht : t.isWord = false) : WellSpelled (ts ++ t :: us) := by
  constructor
  · refine List.isChain_append.2 ⟨hts.apart, List.isChain_cons.2 ⟨fun u _ h => ?_, hus.apart⟩, ?_⟩
    · cases ht.symm.trans h
    · rintro u - v hv -
      obtain rfl : t = v := by simpa using hv
      exact ht
  · intro n hn
    rcases List.mem_append.1 hn with hn | hn
    · exact hts.names n hn
    · rcases List.mem_cons.1 hn with rfl | hn
      · cases ht
      · exact hus.names n hn

theorem wellSpelled_nil : WellSpelled [] := ⟨List.isChain_nil, by simp⟩

theorem WellSpelled.cons {us : List Token} {t : Token} (hus : WellSpelled us)
    (ht : t.isWord = false) : WellSpelled (t :: us) := wellSpelled_nil.append hus ht

/-- Commas keep words apart. -/
theorem wellSpelled_intercalate {tss : List (List Token)} (h : ∀ ts ∈ tss, WellSpelled ts) :
    WellSpelled ([.comma].intercalate tss) := by
  induction tss with
  | nil => exact wellSpelled_nil
  | cons ts tss ih =>
    obtain ⟨hts, htss⟩ := List.forall_mem_cons.1 h
    cases tss with
    | nil => simpa using hts
    | cons us tss => simpa using hts.append (ih htss) rfl

/-- What the grammar derives is well spelled. -/
theorem Derives.wellSpelled {r : Rank} {ts : List Token} {f : Formula} (h : Derives r ts f) :
    WellSpelled ts := by
  induction h with
  | ofProduct _ ih => exact ih
  | ofFactor _ ih => exact ih
  | plus _ _ ihf ihg | minus _ _ ihf ihg | times _ _ ihf ihg | divide _ _ ihf ihg =>
    exact ihf.append ihg rfl
  | negate _ ih => exact ih.cons rfl
  | number v => exact wellSpelled_singleton (by simp)
  | name hn => exact wellSpelled_singleton (by simpa using hn)
  | @call n hn args _ ih =>
    have hargs : WellSpelled ([.comma].intercalate (args.map (·.1))) :=
      wellSpelled_intercalate (List.forall_mem_map.2 ih)
    have hname : WellSpelled [.name n] := wellSpelled_singleton (by simpa using hn)
    exact hname.append (hargs.append wellSpelled_nil rfl) rfl
  | parentheses _ ih => exact (ih.append wellSpelled_nil rfl).cons rfl

end Formula

/-! ### The text of lexemes -/

open Formula

/-- The token of a lexeme. -/
def Lexeme.token : Lexeme Rat → Token
  | .number v => .number v
  | .name n => .name n
  | .negate => .minus
  | .plus => .plus
  | .minus => .minus
  | .times => .times
  | .over => .over
  | .opening => .opening
  | .closing => .closing
  | .comma => .comma

variable [Numeral Rat] {read : String → Option Rat} {w : List Char}

/-- A lexeme that is no word ends the word in front of it. -/
theorem scan_text_append {l : Lexeme Rat} (hl : l.token.isWord = false) (hw : IsClosed w)
    {ts : List Token} (ht : word? read w = some ts) (rest : List Char) :
    scan read w (l.text.toList ++ rest) = (scan read [] rest).map fun us => ts ++ l.token :: us := by
  have hnil : word? read [] = some [] := rfl
  cases l with
  | number v => cases hl
  | name n => cases hl
  | plus | minus =>
    rw [Lexeme.text, String.toList_ofList]
    simp only [List.cons_append, List.nil_append]
    rw [scan_mark hw ht rfl, scan_mark isClosed_nil hnil rfl, scan_mark isClosed_nil hnil rfl]
    cases scan read [] rest <;> simp [Lexeme.token]
  | comma =>
    rw [Lexeme.text, String.toList_ofList]
    simp only [List.cons_append, List.nil_append]
    rw [scan_mark hw ht rfl, scan_mark isClosed_nil hnil rfl]
    cases scan read [] rest <;> simp [Lexeme.token]
  | _ =>
    rw [Lexeme.text, String.toList_ofList, List.cons_append, List.nil_append, scan_mark hw ht rfl]
    cases scan read [] rest <;> simp [Lexeme.token]

/-- The text of lexemes is read on behind a word, which does not stand in front of another. -/
theorem scan_flatMap_text {ls : List (Lexeme Rat)} {ts : List Token}
    (hspells : ∀ l ∈ ls, l.token.isWord → Spells read l.text.toList l.token)
    (happart : (ls.map Lexeme.token).IsChain Apart) (hw : IsClosed w) (ht : word? read w = some ts)
    (hstart : w = [] ∨ ∀ l ∈ ls.head?, l.token.isWord = false) :
    scan read w (ls.flatMap fun l => l.text.toList) = some (ts ++ ls.map Lexeme.token) := by
  induction ls generalizing w ts with
  | nil => simpa [scan] using ht
  | cons l ls ih =>
    obtain ⟨hl, hls⟩ := List.forall_mem_cons.1 hspells
    rw [List.map_cons, List.isChain_cons] at happart
    rw [List.flatMap_cons, List.map_cons]
    cases hword : l.token.isWord with
    | true =>
      obtain rfl : w = [] := hstart.resolve_right fun h => by simp [hword] at h
      obtain rfl : [] = ts := by simpa [word?] using ht
      have hnext : ∀ m ∈ ls.head?, m.token.isWord = false := fun m hm =>
        happart.1 m.token (by simp [List.head?_map, Option.mem_def.1 hm]) hword
      obtain ⟨hkeeps, hclosed, htoken⟩ := hl hword
      rw [scan_append_of_keeps hkeeps, List.nil_append, ih hls happart.2 hclosed htoken (.inr hnext)]
      rfl
    | false =>
      rw [scan_text_append hword hw ht, ih hls happart.2 isClosed_nil rfl (.inl rfl)]
      rfl

/-- The tokens of the text of lexemes are those of the lexemes. -/
theorem tokens?_join {ls : List (Lexeme Rat)} (h : WellSpelled (ls.map Lexeme.token))
    (hread : ∀ v, .number v ∈ ls →
      isNumeral (Numeral.numeral v) ∧ read (Numeral.numeral v) = some v) :
    tokens? read (String.join (ls.map Lexeme.text)) = some (ls.map Lexeme.token) := by
  rw [tokens?, String.toList_join, List.flatMap_map]
  refine scan_flatMap_text (fun l hl hword => ?_) h.apart isClosed_nil rfl (.inl rfl)
  cases l with
  | number v => exact spells_numeral (hread v hl).1 (hread v hl).2
  | name n => exact spells_name (h.names n (List.mem_map_of_mem hl))
  | _ => cases hword

end Kirchhoff
