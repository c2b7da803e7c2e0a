/-!
# Fresh labels

A label is a stem followed by a number. For each stem the numbers are tried upwards from
where the last search ended; a label that was issued before, or that the caller says is
taken, is passed over.
-/

namespace Kirchhoff

/-- The labels issued so far and, for each stem, the next number to try. -/
structure Labels where
  issued : List String := []
  counters : List (String × Nat) := []

namespace Labels

/-- The state before any label was issued. -/
def empty : Labels := {}

/-- The label of a stem and a number. -/
def label (stem : String) (n : Nat) : String := stem ++ n.repr

/-- The next number to try for a stem. -/
def counter (l : Labels) (stem : String) : Nat := (l.counters.lookup stem).getD 0

/-- A label that may be issued next. -/
def isFree (l : Labels) (taken : List String) (label : String) : Bool :=
  !l.issued.contains label && !taken.contains label

/-- The first number from `n` on, among the next `tries`, whose label satisfies `free`. -/
def search (free : String → Bool) (stem : String) : Nat → Nat → Nat
  | 0, n => n
  | tries + 1, n => if free (label stem n) then n else search free stem tries (n + 1)

/-- Issues the first free label of a stem. Each taken or issued label can block one number
only, so there are at most that many to pass over. -/
def fresh (l : Labels) (stem : String) (taken : List String) : String × Labels :=
  let tries := l.issued.length + taken.length
  let n := search (l.isFree taken) stem tries (l.counter stem)
  let text := label stem n
  (text, {
    issued := text :: l.issued
    counters := (stem, n + 1) :: l.counters.filter (·.1 != stem) })

/-- Forgets all labels and starts every stem at zero. -/
def clear (_ : Labels) : Labels := {}

end Labels

end Kirchhoff
