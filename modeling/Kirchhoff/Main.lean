import Kirchhoff.CommandLine.Run

/-!
# The program

Reads the file that the command needs, runs the command and prints what it says.
-/

namespace Kirchhoff

/-- The reason that a code of the system stands for. The code may come negated, in 32 bits. -/
def FileError.ofCode (code : UInt32) (report : String) : FileError :=
  match min code.toNat (-code).toNat with
  | 2 => .notFound
  | 20 => .notDirectory
  | 21 => .isDirectory
  | 36 => .nameTooLong
  | _ => .other report

/-- The reason for which the system does not read a file. -/
def FileError.ofSystem (e : IO.Error) : FileError :=
  match e with
  | .noFileOrDirectory _ code _ | .inappropriateType _ code _ | .invalidArgument _ code _ =>
    .ofCode code (toString e)
  | e => .other (toString e)

/-- Reads a file. -/
def readFile (path : String) : IO (Except FileError String) := do
  if path.toList.contains '\x00' then return .error .nullInName
  try
    match String.fromUTF8? (← IO.FS.readBinFile path) with
    | some text => return .ok text
    | none => return .error .notText
  catch e => return .error (.ofSystem e)

/-- The files that a command with some arguments needs. -/
def neededFiles (args : List String) : IO Files := do
  match CommandLine.neededFile? args with
  | some path =>
    let contents ← readFile path
    return fun _ => contents
  | none => return fun _ => .error .notFound

end Kirchhoff

/-- Runs the command line. -/
def main (args : List String) : IO UInt32 := do
  let outcome := Kirchhoff.CommandLine.run (← Kirchhoff.neededFiles args) args
  (← IO.getStdout).putStr outcome.stdout
  (← IO.getStderr).putStr outcome.stderr
  return outcome.exit.toUInt32
