import Kirchhoff.Files
import Kirchhoff.Generation.Classes
import Kirchhoff.Generation.Outline
import Kirchhoff.Template.Reading

/-!
# Generating code

A class is generated by one of the templates that come with the library, or by a template in
a file. A file is read first, then the linear system is set up, then the template is read and
rendered; the first of these that fails is reported.
-/

namespace Kirchhoff

/-- Which template generates the code. -/
inductive Target where
  | solved
  | dense
  | sparse
  | file (path : String)
deriving DecidableEq

/-- The target of a word: one of three names, or else a path. -/
def Target.ofText : String → Target
  | "class" => .solved
  | "dense" => .dense
  | "sparse" => .sparse
  | path => .file path

/-- Why no code is generated. -/
inductive GenerationError where
  | file (path : String) (cause : FileError)
  | solver (e : SolverError Float)
  | template (e : Template.Error)

namespace GenerationError

/-- The report of a generation error. -/
def message : GenerationError → String
  | .file path _ => "failed to read template " ++ path
  | .solver e => e.message
  | .template e => e.message

/-- What the error was caused by. -/
def cause : GenerationError → Option String
  | .file _ cause => some cause.message
  | _ => none

end GenerationError

/-- The contents of a file with a template. -/
def Files.template (files : Files) (path : String) : Except GenerationError String :=
  match files path with
  | .ok source => .ok source
  | .error cause => .error (.file path cause)

/-- The text of a template for an outline. -/
def Outline.render (o : Outline Float) (t : Template) : Except GenerationError String :=
  match t.render o.scope with
  | .ok text => .ok text
  | .error e => .error (.template e)

namespace System

/-- The text of a template that shows the matrix, for which the system has to be linear. -/
def renderMatrix (s : System Float) (solution : Solution Float) (σ : Substitution Float)
    (t : Template) (name : String) : Except GenerationError String :=
  match s.matrix σ with
  | .ok m => (Outline.ofSystem name s solution (some m)).render t
  | .error e => .error (.solver e)

/-- The code of a class for a system and its solution. -/
def generate (s : System Float) (solution : Solution Float) (σ : Substitution Float)
    (target : Target) (files : Files) (name : String) : Except GenerationError String :=
  match target with
  | .solved => (Outline.ofSystem name s solution none).render Classes.solved
  | .dense => s.renderMatrix solution σ Classes.dense name
  | .sparse => s.renderMatrix solution σ Classes.sparse name
  | .file path => do
    let source ← files.template path
    match Template.read? source with
    | none => .error (.template .unreadable)
    | some t => (Outline.ofSystem name s solution (s.matrix σ).toOption).render t

end System

end Kirchhoff
