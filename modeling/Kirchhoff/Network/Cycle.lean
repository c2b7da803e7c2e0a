import Kirchhoff.Network.Forest

/-!
# Fundamental loops

An edge outside the spanning forest closes a loop with edges of the forest. The loop is
looked for from the second node of that edge, depth first, along the edges of the forest and
the edge itself. The search does not use an edge that is parallel to one it has used
already: parallel edges have a law of their own.

A loop tells apart the edges that are walked from their first node to their second and those
that are walked the other way. Both are listed from the end of the walk to its start.
-/

namespace Kirchhoff

/-- The edges of a loop: those walked in their direction, and those walked against it. -/
structure Loop where
  positive : List Nat := []
  negative : List Nat := []

namespace Loop

/-- The loop whose walk begins with a further edge, in its direction. -/
def along (l : Loop) (e : Nat) : Loop := { l with positive := l.positive ++ [e] }

/-- The loop whose walk begins with a further edge, against its direction. -/
def against (l : Loop) (e : Nat) : Loop := { l with negative := l.negative ++ [e] }

end Loop

namespace Graph

/-- The search may go on along an edge after some edges. -/
def mayWalk (g : Graph) (allowed walked : List Nat) (e : Nat) : Bool :=
  allowed.contains e && !walked.contains e && !walked.any (g.isParallel · e)

/-- Searches from a node for a walk along allowed edges that comes back to one of the nodes
passed before. The depth bounds the number of nodes that are passed. -/
def closeLoop? (g : Graph) (allowed : List Nat) : (depth : Nat) → (passed walked : List Nat) →
    (n : Nat) → Option Loop
  | 0, _, _, _ => none
  | depth + 1, passed, walked, n =>
    if passed.contains n then some {}
    else (g.incident n).findSome? fun e =>
      if !g.mayWalk allowed walked e then none
      else
        let search (m : Nat) := closeLoop? g allowed depth (n :: passed) (e :: walked) m
        let forward := if n = g.first e then (search (g.second e)).map (·.along e) else none
        let backward := if n = g.second e then (search (g.first e)).map (·.against e) else none
        forward <|> backward

/-- The loop that an edge closes with the edges of a forest. -/
def loop? (g : Graph) (forest : List Nat) (e : Nat) : Option Loop :=
  g.closeLoop? (forest ++ [e]) (g.nodeCount + 1) [] [] (g.second e)

/-- The edges outside a forest, in their order. -/
def chords (g : Graph) (forest : List Nat) : List Nat :=
  (List.range g.edgeCount).filter fun e => !forest.contains e

/-- Each edge outside a forest with the loop that it closes. -/
def loops (g : Graph) (forest : List Nat) : List (Nat × Option Loop) :=
  (g.chords forest).map fun e => (e, g.loop? forest e)

end Graph

end Kirchhoff
