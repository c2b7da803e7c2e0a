import Kirchhoff.Assignment
import Kirchhoff.Generation.Code

/-!
# Arguments of the command line

An argument that begins with two hyphens names an option. One that begins with a single
hyphen holds the letters of options. An option with a value takes it from behind an equals
sign, from behind its letter, or from the next argument, which must not look like an option
then. Behind the argument `--` nothing is an option. All else is the name of the circuit.

Arguments count from the left: what is asked for or wrong first decides. An option is given
at most once, except for assignments.
-/

namespace Kirchhoff.CommandLine

/-- An option. -/
inductive Key where
  | timestep
  | set
  | template
  | className
  | json
  | list
  | verbose
  | help
  | version
deriving DecidableEq

/-- The option of a word. -/
def Key.ofWord? : String → Option Key
  | "timestep" => some .timestep
  | "set" => some .set
  | "template" => some .template
  | "class-name" => some .className
  | "json" => some .json
  | "list" => some .list
  | "verbose" => some .verbose
  | "help" => some .help
  | "version" => some .version
  | _ => none

/-- The option of a letter. -/
def Key.ofLetter? : Char → Option Key
  | 'd' => some .timestep
  | 's' => some .set
  | 't' => some .template
  | 'c' => some .className
  | 'j' => some .json
  | 'l' => some .list
  | 'v' => some .verbose
  | 'h' => some .help
  | 'V' => some .version
  | _ => none

/-- The option has a value. -/
def Key.takesValue : Key → Bool
  | .timestep | .set | .template | .className => true
  | _ => false

/-- What the arguments ask for. -/
structure Arguments where
  circuit : Option String := none
  timestep : Option Float := none
  assignments : List (String × Float) := []
  target : Option Target := none
  className : Option String := none
  json : Bool := false
  list : Bool := false
  verbose : Bool := false

/-- Why the arguments are not read to their end. -/
inductive Halt where
  /-- The arguments are not well formed. -/
  | usage
  /-- The options are asked for. -/
  | help
  /-- The version is asked for. -/
  | version
deriving DecidableEq

namespace Arguments

/-- Sets something that must not be set before. -/
def once {β γ : Type} (before : Option β) (set : γ) : Except Halt γ :=
  if before.isSome then .error .usage else .ok set

/-- Sets a mark that must not be set before. -/
def onceMarked {γ : Type} (before : Bool) (set : γ) : Except Halt γ :=
  if before then .error .usage else .ok set

/-- Names the circuit. -/
def addCircuit (a : Arguments) (name : String) : Except Halt Arguments :=
  once a.circuit { a with circuit := some name }

/-- Gives an option its value. -/
def setValue (a : Arguments) (v : String) : Key → Except Halt Arguments
  | .timestep =>
    match Decimal.read? v.toList with
    | some x => once a.timestep { a with timestep := some x }
    | none => .error .usage
  | .set =>
    match readAssignment v with
    | .ok assignment => .ok { a with assignments := a.assignments ++ [assignment] }
    | .error _ => .error .usage
  | .template => once a.target { a with target := some (.ofText v) }
  | .className => once a.className { a with className := some v }
  | _ => .error .usage

/-- Sets an option without a value. -/
def mark (a : Arguments) : Key → Except Halt Arguments
  | .json => onceMarked a.json { a with json := true }
  | .list => onceMarked a.list { a with list := true }
  | .verbose => onceMarked a.verbose { a with verbose := true }
  | .help => .error .help
  | .version => .error .version
  | _ => .error .usage

end Arguments

/-! ### Reading -/

/-- How far the arguments are read. -/
structure Progress where
  arguments : Arguments := {}
  /-- The option whose value is the next argument. -/
  pending : Option Key := none
  /-- Options have ended. -/
  onlyNames : Bool := false

namespace Progress

/-- Reads an option that is given by a word, perhaps with a value behind an equals sign. -/
def readWord (p : Progress) (cs : List Char) : Except Halt Progress :=
  let word := String.ofList (cs.takeWhile (· != '='))
  let value? := match cs.dropWhile (· != '=') with
    | [] => none
    | _ :: value => some (String.ofList value)
  match Key.ofWord? word, value? with
  | none, _ => .error .usage
  | some key, some v => do return { p with arguments := ← p.arguments.setValue v key }
  | some key, none => do
    if key.takesValue then return { p with pending := some key }
    else return { p with arguments := ← p.arguments.mark key }

/-- A value behind a letter, which an equals sign may precede. -/
def attached : List Char → String
  | '=' :: cs => String.ofList cs
  | cs => String.ofList cs

/-- Reads options that are given by letters. -/
def readLetters (p : Progress) : List Char → Except Halt Progress
  | [] => .ok p
  | c :: cs =>
    match Key.ofLetter? c with
    | none => .error .usage
    | some key =>
      if !key.takesValue then do
        let a ← p.arguments.mark key
        readLetters { p with arguments := a } cs
      else if cs.isEmpty then .ok { p with pending := some key }
      else do return { p with arguments := ← p.arguments.setValue (attached cs) key }

/-- Reads an argument that is no option. -/
def readPlain (p : Progress) (arg : String) : Except Halt Progress :=
  match p.pending with
  | some key => do
    return { p with arguments := ← p.arguments.setValue arg key, pending := none }
  | none => do return { p with arguments := ← p.arguments.addCircuit arg }

/-- Reads something that ends the wait for a value. -/
def unlessPending (p : Progress) (next : Except Halt Progress) : Except Halt Progress :=
  if p.pending.isSome then .error .usage else next

/-- Reads an argument. -/
def step (p : Progress) (arg : String) : Except Halt Progress :=
  if p.onlyNames then p.readPlain arg
  else
    match arg.toList with
    | ['-', '-'] => p.unlessPending (.ok { p with onlyNames := true })
    | '-' :: '-' :: cs => p.unlessPending (p.readWord cs)
    | ['-'] => p.readPlain arg
    | '-' :: cs => p.unlessPending (p.readLetters cs)
    | _ => p.readPlain arg

/-- Ends the reading. A circuit has to be named, unless the circuits are to be listed. -/
def finish (p : Progress) : Except Halt Arguments :=
  if p.pending.isSome then .error .usage
  else if p.arguments.circuit.isNone && !p.arguments.list then .error .usage
  else .ok p.arguments

end Progress

/-- Reads the arguments of the command line. -/
def Arguments.read (args : List String) : Except Halt Arguments := do
  (← args.foldlM Progress.step {}).finish

end Kirchhoff.CommandLine
