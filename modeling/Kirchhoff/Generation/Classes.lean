import Kirchhoff.Template.Basic

/-!
# Classes that come with the library

Three templates of C++ classes. The class of `solved` assigns the closed forms of the
unknowns in its `run()`. Those of `dense` and `sparse` set up the linear system, factorize
its matrix in `compute()` and solve it in `run()`. All of them refresh the auxiliaries at the
end of `run()`.
-/

namespace Kirchhoff.Classes

open Template (Term Piece)

/-! ### Parts of all classes -/

/-- The value of a name. -/
def print (x : String) : Piece := .print (.name x)

/-- A field of the value of a name. -/
def printField (x key : String) : Piece := .print (.field (.name x) key)

/-- The items of the value of a name, with commas between them. -/
def printList (x : String) : Piece := .print (.join (.name x) (.literal (.text ", ")))

/-- A line that sets off the class. -/
def ruler : String :=
  "//=============================================================================="

/-- The comment in front of a class. -/
def heading (kind : String) : Template :=
  [.text (ruler ++ "\n// "), print "name", .text (": " ++ kind ++ "\n" ++ ruler ++ "\n")]

/-- The headers that every class needs. -/
def headers : String :=
  "\n#include <netsynth/analog_pair.hpp>\n#include <netsynth/simulation.hpp>\n\n"

/-- The first lines of a class. -/
def opening : Template := [.text "class ", print "name", .text " \x7b\npublic:\n"]

/-- Variables of one type under a comment. -/
def declaration (comment type names : String) : Template :=
  [.text ("    /// " ++ comment ++ "\n    " ++ type ++ " "), printList names, .text ";\n"]

/-- All variables of a class. -/
def declarations : Template :=
  declaration "Analog edges." "analog_pair_t" "edges" ++ [
    .choice (.name "parameters")
      (declaration "System variables." "analog_value_t" "parameters") [],
    .choice (.name "support_values")
      (declaration "Support variables." "analog_value_t" "support_values") []]

/-- The variables in the initializer list of the constructor. -/
def initializers : Piece :=
  .repetition "member" (.name "members") [
    .text "        ", print "member", .text "()",
    .print (.choose (.literal (.text ",")) (.negate (.field (.name "loop") "last"))
      (.literal (.text ""))),
    .text "\n"] []

/-- The timestep is asked for when it is a symbol. -/
def timestep (comment : String) : Piece :=
  .choice (.isAbsent (.name "timestep"))
    [.text (comment ++ "        analog_time_t ts = _system_timestep();\n")] []

/-- Assignments of one list. -/
def assignments (names : String) : Piece :=
  .repetition "assignment" (.name names) [
    .text "        ", printField "assignment" "lhs", .text " = ", printField "assignment" "rhs",
    .text ";\n"] []

/-- The auxiliaries are refreshed. -/
def refresh : Template := [.text "        // Update support variables.\n", assignments "support"]

/-- The last lines of a class. -/
def closing : Piece := .text "    \x7d\n\x7d;\n"

/-! ### The class with closed forms -/

/-- A class that assigns the closed forms of the unknowns. -/
def solved : Template :=
  heading "generated by netsynth" ++ [.text headers] ++ opening ++ declarations ++ [
    .text "    /// Constructor.\n    ", print "name", .text "() :\n",
    initializers,
    .text "    \x7b\n    \x7d\n\n    void run() \x7b\n",
    timestep "        // Get the system timestep.\n",
    .choice (.negate (.name "assignments")) [
      .print (.warn (.concat (.literal (.text "no solved assignments to emit for "))
        (.name "name"))),
      .text "\n"] [],
    .text "        // Evaluate the analog values.\n",
    assignments "assignments"] ++ refresh ++ [closing, .text ruler]

/-! ### Classes that solve the linear system -/

/-- How a class keeps and solves its linear system. -/
structure Storage where
  /-- The kind of the system, for the comment in front of the class. -/
  kind : String
  /-- The header of the matrix type. -/
  header : String
  /-- The pieces in front of the class. -/
  caution : Template
  /-- The declarations of the matrix, the right-hand side and the solver. -/
  system : Template
  /-- Their part of the initializer list. -/
  initial : Template
  /-- What stands in front of the row and column of an entry. -/
  entry : String
  /-- The factorization. -/
  factorization : String
  /-- The type of the solution. -/
  solutionType : String
  /-- What follows the solution. -/
  check : String

/-- A field of the matrix. -/
def printMatrix (key : String) : Piece := printField "matrix" key

/-- The coefficients of the matrix. -/
def entries (s : Storage) : Piece :=
  .repetition "cell" (.field (.name "matrix") "entries") [
    .text ("        " ++ s.entry ++ "("), printField "cell" "row", .text ", ",
    printField "cell" "col", .text ") = ", printField "cell" "value", .text ";\n"] []

/-- The method that sets up the matrix. -/
def compute (s : Storage) : Template := [
  .text ("    /// Sets A and factorizes it. Call again after changing a parameter.\n" ++
    "    void compute() \x7b\n"),
  timestep "",
  .text "        A.setZero();\n",
  entries s,
  .text (s.factorization ++ "    \x7d\n\n")]

/-- The right-hand side of the system. -/
def rightHandSide : Piece :=
  .repetition "value" (.field (.name "matrix") "b") [
    .text "        b(", printField "loop" "index0", .text ") = ", print "value", .text ";\n"] []

/-- The unknowns from the solution. -/
def unknowns : Piece :=
  .repetition "unknown" (.name "unknowns") [
    .text "        ", print "unknown", .text " = solution(", printField "loop" "index0",
    .text ");\n"] []

/-- The method that does a step. -/
def run (s : Storage) : Template := [
  .text "    void run() \x7b\n",
  timestep "",
  .text "        // Set the b vector.\n",
  rightHandSide,
  .text ("\n        // Solve the system.\n        " ++ s.solutionType ++
    " solution = solver.solve(b);\n" ++ s.check ++ "\n        // Get the solution.\n"),
  unknowns] ++ refresh

/-- A class that solves the linear system. -/
def solving (s : Storage) : Template :=
  heading (s.kind ++ " A x = b form, generated by netsynth") ++ [
    .text ("#include <Eigen/" ++ s.header ++ ">\n#include <cassert>\n" ++ headers),
    .choice (.name "matrix")
      (s.caution ++ opening ++ s.system ++ [.text "\n"] ++ declarations ++
        [.text "\n    ", print "name", .text "() :\n"] ++ s.initial ++
        [initializers, .text "    \x7b\n        compute();\n    \x7d\n\n"] ++
        compute s ++ run s ++ [closing])
      [.print (.warn (.concat (.literal (.text "no linear form available for "))
        (.name "name"))),
        .text "\n"],
    .text ruler]

/-- A matrix of fixed size. -/
def denseStorage : Storage where
  kind := "dense"
  header := "Dense"
  caution := []
  system := [
    .text "    Eigen::Matrix<double, ", printMatrix "rows", .text ", ", printMatrix "cols",
    .text "> A;\n    Eigen::Matrix<double, ", printMatrix "rows",
    .text ", 1> b;\n\n    Eigen::JacobiSVD<Eigen::Matrix<double, ", printMatrix "rows", .text ", ",
    printMatrix "cols", .text ">> solver;\n"]
  initial := [.text "        A(),\n        b(),\n        solver(),\n"]
  entry := "A"
  factorization := "        solver.compute(A, Eigen::ComputeFullU | Eigen::ComputeFullV);\n"
  solutionType := "auto"
  check := ""

/-- A matrix of which only the entries are kept. -/
def sparseStorage : Storage where
  kind := "sparse"
  header := "Sparse"
  caution := [
    .choice (.negate (.field (.name "matrix") "square")) [
      .print (.warn (.concat (.concat (.concat (.concat (.name "name") (.literal (.text " has ")))
        (.field (.name "matrix") "rows")) (.literal (.text " equations for ")))
        (.concat (.field (.name "matrix") "cols")
          (.literal (.text " unknowns, SparseLU needs a square system"))))),
      .text "\n"] []]
  system := [
    .text ("    Eigen::SparseMatrix<double> A;\n    Eigen::VectorXd b;\n\n" ++
      "    Eigen::SparseLU<Eigen::SparseMatrix<double>> solver;\n")]
  initial := [
    .text "        A(", printMatrix "rows", .text ", ", printMatrix "cols", .text "),\n        b(",
    printMatrix "rows", .text "),\n        solver(),\n"]
  entry := "A.insert"
  factorization := "        A.makeCompressed();\n        solver.compute(A);\n" ++
    "        assert((solver.info() == Eigen::Success) && \"Failed decomposing matrix.\");\n"
  solutionType := "Eigen::VectorXd"
  check := "        assert((solver.info() == Eigen::Success) && " ++
    "\"Failed solving the sparse matrix.\");\n"

/-- A class with a matrix of fixed size. -/
def dense : Template := solving denseStorage

/-- A class with a sparse matrix. -/
def sparse : Template := solving sparseStorage

end Kirchhoff.Classes
