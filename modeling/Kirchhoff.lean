import Kirchhoff.Assignment
import Kirchhoff.Circuits
import Kirchhoff.CommandLine.Run
import Kirchhoff.Generation.Code
import Kirchhoff.Linear.Elimination
import Kirchhoff.Main
import Kirchhoff.Network.Laws
import Kirchhoff.Synthesis.Session
import Kirchhoff.Template.Reading
import Kirchhoff.Walk
import Kirchhoff.Proofs.Expr.Canonical
import Kirchhoff.Proofs.Linear.Solution
import Kirchhoff.Proofs.Network.Laws
import Kirchhoff.Proofs.Expr.Symbols
import Kirchhoff.Proofs.Substitution
import Kirchhoff.Proofs.Linear.Form
import Kirchhoff.Proofs.Network.Flows
import Kirchhoff.Proofs.Network.Growth
import Kirchhoff.Proofs.Network.Spanning
import Kirchhoff.Proofs.Expr.Execution
import Kirchhoff.Proofs.Linear.Affine
import Kirchhoff.Proofs.Linear.Exact
import Kirchhoff.Proofs.Linear.Solvability
import Kirchhoff.Proofs.Linear.ClosedForm
import Kirchhoff.Proofs.Network.Counting
import Kirchhoff.Proofs.Network.Fundamental
import Kirchhoff.Proofs.Expr.Budget
import Kirchhoff.Proofs.Expr.Built
import Kirchhoff.Proofs.Formula.Grammar
import Kirchhoff.Proofs.Formula.Lexer
import Kirchhoff.Proofs.Formula.Writing
import Kirchhoff.Proofs.Formula.Printing
import Kirchhoff.Proofs.Expr.Guarantees
import Kirchhoff.Proofs.Expr.Renaming
import Kirchhoff.Proofs.Synthesis.Script
import Kirchhoff.Proofs.Synthesis.History
import Kirchhoff.Proofs.Synthesis.Refresh
import Kirchhoff.Proofs.Discretization
import Kirchhoff.Proofs.Linear.Cofactors
import Kirchhoff.Proofs.Linear.Coupling
import Kirchhoff.Proofs.Network.Coverage
import Kirchhoff.Proofs.Linear.Degree
import Kirchhoff.Proofs.Synthesis.Declared
import Kirchhoff.Proofs.Generation.Members
import Kirchhoff.Proofs.Expr.Rebuilding
import Kirchhoff.Proofs.Linear.Scaling
import Kirchhoff.Proofs.Linear.Errors
import Kirchhoff.Proofs.Expr.Recursion
import Kirchhoff.Proofs.Network.Grouping
import Kirchhoff.Proofs.Synthesis.Fresh
import Kirchhoff.Proofs.Synthesis.Support
import Kirchhoff.Proofs.Synthesis.Identity
import Kirchhoff.Proofs.Network.Incidence
import Kirchhoff.Proofs.Expr.Calls
import Kirchhoff.Proofs.Synthesis.Accepted
