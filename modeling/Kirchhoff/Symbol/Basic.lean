/-!
# Symbols

A symbol is a handle that a symbol table has given out for a name. Two symbols are the
same when their numbers are: a name that is interned again after the table was cleared
gives another symbol.
-/

namespace Kirchhoff

/-- A named quantity in an expression. -/
structure Symbol where
  id : Nat
  name : String

namespace Symbol

/-- Symbols are the same when they come from the same interning. -/
instance : BEq Symbol := ⟨fun s t => s.id == t.id⟩

theorem beq_iff {s t : Symbol} : (s == t) = true ↔ s.id = t.id := by
  simp [BEq.beq]

/-- Symbols are listed by name, character by character, and then by number. -/
def order (s t : Symbol) : Ordering := (compare s.name t.name).then (compare s.id t.id)

/-- `s` comes no later than `t` in the order of names. -/
def isLE (s t : Symbol) : Bool := (s.order t).isLE

end Symbol

end Kirchhoff
