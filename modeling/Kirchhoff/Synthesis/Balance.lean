/-!
# Counting equations and unknowns

A system can have one solution only if it has as many equations as unknowns. The difference of
the two numbers is kept in a signed word of 64 bits and wraps around at its ends.
-/

namespace Kirchhoff

/-- The numbers of equations and unknowns of a system. -/
structure Balance where
  equations : Nat
  unknowns : Nat

/-- How the two numbers compare. -/
inductive BalanceStatus where
  | balanced
  /-- There are more equations than unknowns. -/
  | overDetermined
  /-- There are fewer equations than unknowns. -/
  | underDetermined
deriving DecidableEq

namespace Balance

/-- How the numbers of a system compare. -/
def status (b : Balance) : BalanceStatus :=
  if b.equations = b.unknowns then .balanced
  else if b.unknowns < b.equations then .overDetermined
  else .underDetermined

/-- There are as many equations as unknowns. -/
def isBalanced (b : Balance) : Bool := b.status == .balanced

/-- A number as a signed word of 64 bits holds it. -/
def wrap (n : Int) : Int := n.bmod UInt64.size

/-- The number of equations less the number of unknowns. -/
def difference (b : Balance) : Int := wrap ((b.equations : Int) - b.unknowns)

/-- The report of a balance. -/
def text (b : Balance) : String :=
  let counts := b.equations.repr ++ " equations, " ++ b.unknowns.repr ++ " unknowns"
  match b.status with
  | .balanced => "balanced: " ++ counts
  | .overDetermined => "over-determined by " ++ b.difference.repr ++ ": " ++ counts
  | .underDetermined => "under-determined by " ++ (wrap (-b.difference)).repr ++ ": " ++ counts

end Balance

end Kirchhoff
