import Kirchhoff.Scalar

/-!
# Formulas of the language C

The formulas that expressions are written as, with the precedence that they have in C: a sum is
built of products and a product of factors, both from the left, and a sign binds more tightly than
either. `Derives` is this grammar, with left recursion as in the standard.

`parse?` reads a list of tokens from left to right, with what is still to be done with the next
operand at hand. It finds what the grammar derives (`parse?_of_derives`), so that a list of tokens
is derived from one formula only (`Derives.unique`).
-/

namespace Kirchhoff

/-- A formula. -/
inductive Formula where
  | number (value : Rat)
  | name (name : String)
  | negate (operand : Formula)
  | plus (left right : Formula)
  | minus (left right : Formula)
  | times (left right : Formula)
  | divide (left right : Formula)
  | call (function : String) (args : List Formula)

namespace Formula

/-! ### Values -/

/-- The meaning of the names in a formula. -/
structure Valuation where
  name : String → Option Rat
  function : String → List Rat → Option Rat

mutual

/-- The value of a formula, where it has one. A quotient has none where the divisor is zero. -/
def eval (η : Valuation) : Formula → Option Rat
  | .number v => some v
  | .name n => η.name n
  | .negate f => do return -(← eval η f)
  | .plus f g => do return (← eval η f) + (← eval η g)
  | .minus f g => do return (← eval η f) - (← eval η g)
  | .times f g => do return (← eval η f) * (← eval η g)
  | .divide f g => do
    let x ← eval η f
    let y ← eval η g
    if y = 0 then none else some (x / y)
  | .call n args => do η.function n (← evalAll η args)

/-- The values of a list of formulas, where all of them have one. -/
def evalAll (η : Valuation) : List Formula → Option (List Rat)
  | [] => some []
  | f :: fs => do return (← eval η f) :: (← evalAll η fs)

end

/-! ### Grammar -/

/-- A token of a formula. The sign of a number and the sign of a difference are one token. -/
inductive Token where
  | number (value : Rat)
  | name (name : String)
  | plus
  | minus
  | times
  | over
  | opening
  | closing
  | comma
deriving DecidableEq

/-- A character of a name or numeral. -/
def isWordChar (c : Char) : Bool := c.isAlphanum || c == '_' || c == '.'

/-- A name is an identifier, with dots between its parts. -/
def isName (n : String) : Bool :=
  match n.toList with
  | [] => false
  | c :: cs => (c.isAlpha || c == '_') && cs.all isWordChar

/-- How tightly the operands of a formula are bound. -/
inductive Rank where
  | sum
  | product
  | factor

/-- The tokens are those of the formula, by the grammar of C. -/
inductive Derives : Rank → List Token → Formula → Prop
  | ofProduct {ts : List Token} {f : Formula} (h : Derives .product ts f) : Derives .sum ts f
  | plus {ts us : List Token} {f g : Formula} (hf : Derives .sum ts f)
    (hg : Derives .product us g) : Derives .sum (ts ++ .plus :: us) (.plus f g)
  | minus {ts us : List Token} {f g : Formula} (hf : Derives .sum ts f)
    (hg : Derives .product us g) : Derives .sum (ts ++ .minus :: us) (.minus f g)
  | ofFactor {ts : List Token} {f : Formula} (h : Derives .factor ts f) : Derives .product ts f
  | times {ts us : List Token} {f g : Formula} (hf : Derives .product ts f)
    (hg : Derives .factor us g) : Derives .product (ts ++ .times :: us) (.times f g)
  | divide {ts us : List Token} {f g : Formula} (hf : Derives .product ts f)
    (hg : Derives .factor us g) : Derives .product (ts ++ .over :: us) (.divide f g)
  | negate {ts : List Token} {f : Formula} (h : Derives .factor ts f) :
    Derives .factor (.minus :: ts) (.negate f)
  | number (v : Rat) : Derives .factor [.number v] (.number v)
  | name {n : String} (hn : isName n) : Derives .factor [.name n] (.name n)
  /-- The arguments of a call stand between commas. -/
  | call {n : String} (hn : isName n) {args : List (List Token × Formula)}
    (h : ∀ a ∈ args, Derives .sum a.1 a.2) :
    Derives .factor (.name n :: .opening :: ([.comma].intercalate (args.map (·.1)) ++ [.closing]))
      (.call n (args.map (·.2)))
  | parentheses {ts : List Token} {f : Formula} (h : Derives .sum ts f) :
    Derives .factor (.opening :: (ts ++ [.closing])) f

/-! ### Parsing -/

/-- What is to be done with the next factor: it ends a product, and this ends a sum. -/
structure Level where
  sum : Formula → Formula := id
  product : Formula → Formula := id

/-- What a parenthesis was opened for. A call has some arguments already. -/
inductive Bracket where
  | parentheses
  | call (function : String) (args : List Formula)

mutual

/-- Reads on where an operand is expected, inside the brackets that are open. -/
def readOperand (l : Level) (outer : List (Bracket × Level)) : List Token → Option Formula
  | .number v :: ts => readOperator (l.product (.number v)) l.sum outer ts
  | .name n :: .opening :: .closing :: ts => readOperator (l.product (.call n [])) l.sum outer ts
  | .name n :: .opening :: ts => readOperand {} ((.call n [], l) :: outer) ts
  | .name n :: ts => readOperator (l.product (.name n)) l.sum outer ts
  | .minus :: ts => readOperand { l with product := fun f => l.product (.negate f) } outer ts
  | .opening :: ts => readOperand {} ((.parentheses, l) :: outer) ts
  | _ => none

/-- Reads on after a product, which ends a sum. -/
def readOperator (product : Formula) (sum : Formula → Formula) (outer : List (Bracket × Level)) :
    List Token → Option Formula
  | [] => if outer.isEmpty then some (sum product) else none
  | .plus :: ts => readOperand { sum := .plus (sum product) } outer ts
  | .minus :: ts => readOperand { sum := .minus (sum product) } outer ts
  | .times :: ts => readOperand { sum, product := .times product } outer ts
  | .over :: ts => readOperand { sum, product := .divide product } outer ts
  | .comma :: ts =>
    match outer with
    | (.call n args, l) :: outer =>
      readOperand {} ((.call n (args ++ [sum product]), l) :: outer) ts
    | _ => none
  | .closing :: ts =>
    match outer with
    | (.parentheses, l) :: outer => readOperator (l.product (sum product)) l.sum outer ts
    | (.call n args, l) :: outer =>
      readOperator (l.product (.call n (args ++ [sum product]))) l.sum outer ts
    | [] => none
  | _ => none

end

/-- The formula that a list of tokens is read as. -/
def parse? (ts : List Token) : Option Formula := readOperand {} [] ts

/-! ### Every formula is found -/

/-- What may follow an operand. A parenthesis would turn a name into a call. -/
def Follows (ts : List Token) : Prop := ts.head? ≠ some .opening

/-- Reading the tokens of an operand brings the parser to the next operator. -/
def Reads : Rank → List Token → Formula → Prop
  | .factor, ts, f => ∀ l outer rest, Follows rest →
    readOperand l outer (ts ++ rest) = readOperator (l.product f) l.sum outer rest
  | .product, ts, f => ∀ s outer rest, Follows rest →
    readOperand { sum := s } outer (ts ++ rest) = readOperator f s outer rest
  | .sum, ts, f => ∃ p s, s p = f ∧ ∀ outer rest, Follows rest →
    readOperand {} outer (ts ++ rest) = readOperator p s outer rest

theorem Derives.head_ne_closing {r : Rank} {ts : List Token} {f : Formula} (h : Derives r ts f) :
    ∃ t us, ts = t :: us ∧ t ≠ .closing := by
  induction h with
  | ofProduct _ ih => exact ih
  | ofFactor _ ih => exact ih
  | plus _ _ ih | minus _ _ ih | times _ _ ih | divide _ _ ih =>
    obtain ⟨t, us, rfl, ht⟩ := ih
    exact ⟨t, _, rfl, ht⟩
  | negate | number | name | call | parentheses => exact ⟨_, _, rfl, by simp⟩

/-- The arguments of a call are read one after the other, behind those that were read before. -/
theorem readOperand_args {args : List (List Token × Formula)} {a : List Token × Formula}
    (h : ∀ b ∈ a :: args, Reads .sum b.1 b.2) (n : String) (read : List Formula) (l : Level)
    (outer : List (Bracket × Level)) (rest : List Token) :
    readOperand {} ((.call n read, l) :: outer)
        ([.comma].intercalate ((a :: args).map (·.1)) ++ .closing :: rest) =
      readOperator (l.product (.call n (read ++ (a :: args).map (·.2)))) l.sum outer rest := by
  induction args generalizing a read with
  | nil =>
    obtain ⟨p, s, hps, ha⟩ := h a (by simp)
    simp only [List.map_cons, List.map_nil, List.intercalate_singleton]
    rw [ha _ _ (by simp [Follows]), readOperator, hps]
  | cons b args ih =>
    obtain ⟨ha, hargs⟩ := List.forall_mem_cons.1 h
    obtain ⟨p, s, hps, ha⟩ := ha
    have hnext := ih hargs (read ++ [a.2])
    simp only [List.map_cons, List.intercalate_cons_cons, List.append_assoc, List.cons_append,
      List.nil_append] at hnext ⊢
    rw [ha _ _ (by simp [Follows]), readOperator, hps, hnext]

/-- The parser reads what the grammar derives. -/
theorem Derives.reads {r : Rank} {ts : List Token} {f : Formula} (h : Derives r ts f) :
    Reads r ts f := by
  induction h with
  | ofProduct _ ih => exact ⟨_, id, rfl, ih id⟩
  | ofFactor _ ih => exact fun s => ih { sum := s }
  | @plus _ us _ g _ _ ihf ihg =>
    obtain ⟨p, s, rfl, hf⟩ := ihf
    refine ⟨g, .plus (s p), rfl, fun outer rest hrest => ?_⟩
    rw [List.append_assoc, hf _ _ (by simp [Follows]), List.cons_append, readOperator]
    exact ihg _ outer rest hrest
  | @minus _ us _ g _ _ ihf ihg =>
    obtain ⟨p, s, rfl, hf⟩ := ihf
    refine ⟨g, .minus (s p), rfl, fun outer rest hrest => ?_⟩
    rw [List.append_assoc, hf _ _ (by simp [Follows]), List.cons_append, readOperator]
    exact ihg _ outer rest hrest
  | times _ _ ihf ihg | divide _ _ ihf ihg =>
    intro s outer rest hrest
    rw [List.append_assoc, ihf s _ _ (by simp [Follows]), List.cons_append, readOperator]
    exact ihg _ outer rest hrest
  | negate _ ih =>
    intro l outer rest hrest
    rw [List.cons_append, readOperand]
    exact ih _ outer rest hrest
  | number v =>
    intro l outer rest _
    rw [List.cons_append, List.nil_append, readOperand]
  | name _ =>
    intro l outer rest hrest
    rw [List.cons_append, List.nil_append, readOperand]
    · rintro _ rfl
      simp [Follows] at hrest
    · rintro _ rfl
      simp [Follows] at hrest
  | @call n _ args h ih =>
    intro l outer rest _
    simp only [List.cons_append, List.append_assoc, List.nil_append]
    cases args with
    | nil => rfl
    | cons a args =>
      have hargs := readOperand_args ih n [] l outer rest
      obtain ⟨t, us, ha, ht⟩ := (h a (by simp)).head_ne_closing
      obtain ⟨vs, hvs⟩ : ∃ vs, [Token.comma].intercalate ((a :: args).map (·.1)) = t :: vs := by
        cases args <;> simp [ha]
      rw [hvs, List.cons_append] at hargs ⊢
      rw [readOperand, hargs, List.nil_append]
      rintro _ hclosing
      exact ht (List.cons.inj hclosing).1
  | parentheses _ ih =>
    obtain ⟨p, s, rfl, hf⟩ := ih
    intro l outer rest _
    rw [List.cons_append, List.append_assoc, readOperand, hf _ _ (by simp [Follows]),
      List.cons_append, List.nil_append, readOperator]

/-- The parser finds what the grammar derives. -/
theorem parse?_of_derives {ts : List Token} {f : Formula} (h : Derives .sum ts f) :
    parse? ts = some f := by
  obtain ⟨p, s, rfl, hread⟩ := h.reads
  have := hread [] [] (by simp [Follows])
  rw [List.append_nil] at this
  simp [parse?, this, readOperator]

/-- A list of tokens is derived from one formula only. -/
theorem Derives.unique {ts : List Token} {f g : Formula} (hf : Derives .sum ts f)
    (hg : Derives .sum ts g) : f = g :=
  Option.some.inj ((parse?_of_derives hf).symm.trans (parse?_of_derives hg))

end Formula

end Kirchhoff
