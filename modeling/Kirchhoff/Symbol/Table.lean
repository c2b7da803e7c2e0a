import Kirchhoff.Symbol.Basic

/-!
# The symbol table

A table gives every name one symbol until it is cleared. Numbers are handed out in
increasing order and never again, also not after a clearing.
-/

namespace Kirchhoff

/-- The symbols interned since the last clearing, in order, and the next free number. -/
structure SymbolTable where
  symbols : List Symbol := []
  next : Nat := 0

namespace SymbolTable

/-- The table before anything was interned. -/
def empty : SymbolTable := {}

/-- The symbol of a name, if it is interned. -/
def get? (t : SymbolTable) (name : String) : Option Symbol :=
  t.symbols.find? (·.name == name)

/-- The name is interned. -/
def contains (t : SymbolTable) (name : String) : Bool := (t.get? name).isSome

/-- The number of interned names. -/
def size (t : SymbolTable) : Nat := t.symbols.length

/-- The symbol of a name, which is interned if it was not. -/
def intern (t : SymbolTable) (name : String) : Symbol × SymbolTable :=
  match t.get? name with
  | some s => (s, t)
  | none =>
    let s : Symbol := ⟨t.next, name⟩
    (s, { symbols := t.symbols ++ [s], next := t.next + 1 })

/-- Forgets all names, but not which numbers were used. -/
def clear (t : SymbolTable) : SymbolTable := { t with symbols := [] }

end SymbolTable

end Kirchhoff
