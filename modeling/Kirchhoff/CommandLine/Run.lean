import Kirchhoff.Circuits
import Kirchhoff.CommandLine.Arguments
import Kirchhoff.CommandLine.Report
import Kirchhoff.Linear.Elimination

/-!
# Running the command line

Synthesizes and solves a circuit that comes with the library, and prints the system with
its solution, a JSON document, or generated code. `CommandLine.run` says what is printed
and how the command ends; the files it may need are given to it.
-/

namespace Kirchhoff.CommandLine

/-- What a command prints, and its exit code. -/
structure Outcome where
  exit : Nat
  stdout : String := ""
  stderr : String := ""

/-- A failure in one sentence, and what caused it. -/
structure Failure where
  message : String
  cause : Option String := none

/-- The text of a failure. -/
def Failure.text (f : Failure) : String :=
  match f.cause with
  | none => "Error: " ++ f.message ++ "\n"
  | some cause => "Error: " ++ f.message ++ "\n\nCaused by:\n    " ++ cause ++ "\n"

/-- An input error is a failure without a cause. -/
def Failure.ofInput {β : Type} : Except (InputError Float) β → Except Failure β
  | .ok b => .ok b
  | .error e => .error { message := e.message }

/-! ### Texts -/

/-- The name and version of the program. -/
def versionText : String := "netsynth 0.4.5\n"

/-- How the program is called. -/
def usageText : String :=
  "Usage: netsynth [OPTIONS] [CIRCUIT]\n\nOptions:\n" ++
  "  -d, --timestep <TIMESTEP>      Simulation timestep, 0 keeps it symbolic\n" ++
  "  -s, --set <SET>                Substitutes a parameter before solving, as name=value\n" ++
  "  -t, --template <TEMPLATE>      Renders a template: class, dense, sparse or a file\n" ++
  "  -c, --class-name <CLASS_NAME>  Class name used by the templates\n" ++
  "  -j, --json                     Prints the system and its solution as JSON\n" ++
  "  -l, --list                     Lists the built-in circuits\n" ++
  "  -v, --verbose                  Verbose output\n" ++
  "  -h, --help                     Print help\n" ++
  "  -V, --version                  Print version\n"

/-- A text filled up with blanks to a width. -/
def padRight (width : Nat) (s : String) : String :=
  s ++ String.ofList (List.replicate (width - s.length) ' ')

/-- The circuits with their descriptions, one a line. -/
def circuitList : String :=
  Text.unlines (Circuit.all.map fun c => padRight 12 c.name ++ " " ++ c.description)

/-! ### Synthesis -/

/-- What is printed of a circuit. -/
structure Synthesis where
  circuit : Circuit
  substitution : Substitution Float
  system : System Float
  solution : Solution Float

/-- Synthesizes and solves the circuit that the arguments name. -/
def synthesis (a : Arguments) : Except Failure Synthesis := do
  let name := a.circuit.getD ""
  let some circuit := Circuit.find? name
    | .error { message := "unknown circuit '" ++ name ++ "', try --list" }
  let context ← Failure.ofInput (Context.new.withTimestep (a.timestep.getD 0))
  let (system, context) := synthesize circuit.model context
  let substitution ← Failure.ofInput (Substitution.ofAssignments context a.assignments)
  match system.solve (gaussJordan defaultTolerance Symbol.probe) substitution with
  | .ok solution => return { circuit, substitution, system, solution }
  | .error e =>
    .error { message := "failed to solve '" ++ circuit.name ++ "'", cause := some e.message }

/-- The JSON document of a synthesis. -/
def Synthesis.json (s : Synthesis) : Json :=
  .record [("circuit", .text s.circuit.name), ("system", s.system.json),
    ("balance", s.system.balance.json), ("solution", s.solution.json)]

/-- The report of a synthesis. -/
def Synthesis.text (s : Synthesis) : String :=
  Text.unlines [s.system.text, s.system.balance.text, String.ofList (List.replicate 40 '='),
    s.solution.text]

/-- What is printed in front of generated code. -/
def Synthesis.report (s : Synthesis) (a : Arguments) : String :=
  if a.json then s.json.pretty ++ "\n" else if a.target.isNone then s.text else ""

/-! ### The command -/

/-- Prints a circuit. -/
def printCircuit (files : Files) (a : Arguments) : Outcome :=
  match synthesis a with
  | .error f => { exit := 1, stderr := f.text }
  | .ok s =>
    let report := s.report a
    match a.target with
    | none => { exit := 0, stdout := report }
    | some target =>
      match s.system.generate s.solution s.substitution target files
          (a.className.getD "Model") with
      | .ok code => { exit := 0, stdout := report ++ code ++ "\n" }
      | .error e =>
        let failure : Failure := { message := e.message, cause := e.cause }
        { exit := 1, stdout := report, stderr := failure.text }

/-- Runs the command with some arguments. -/
def run (files : Files) (args : List String) : Outcome :=
  match Arguments.read args with
  | .error .usage => { exit := 2, stderr := usageText }
  | .error .help => { exit := 0, stdout := usageText }
  | .error .version => { exit := 0, stdout := versionText }
  | .ok a => if a.list then { exit := 0, stdout := circuitList } else printCircuit files a

/-- The file that the command needs. -/
def neededFile? (args : List String) : Option String :=
  match Arguments.read args with
  | .ok { target := some (.file path), .. } => some path
  | _ => none

end Kirchhoff.CommandLine
