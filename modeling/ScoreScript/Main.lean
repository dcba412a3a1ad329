import ScoreScript.CommandLine

/-!
# The program

Runs the command line on the files of the system.
-/

namespace ScoreScript.CommandLine

def causeOf (failure : IO.Error) : FileFault :=
  match failure with
  | .noFileOrDirectory .. => .missing
  | .alreadyExists .. => .occupied
  | _ => .other (toString failure)

def outcomeOf {α : Type} (action : IO α) : IO (Except FileFault α) := do
  match ← action.toBaseIO with
  | .ok value => return .ok value
  | .error failure => return .error (causeOf failure)

def directoryOf (path : String) : String :=
  "/".intercalate (path.splitOn "/").dropLast

def writeFile (path content : String) : IO Unit := do
  let directory := directoryOf path
  unless directory.isEmpty do IO.FS.createDirAll directory
  IO.FS.writeFile path content

def systemAccess : FileAccess IO where
  read path := outcomeOf (IO.FS.readFile path)
  write path content := outcomeOf (writeFile path content)

/-- Run the program on its arguments and give its exit code. -/
def runProgram (arguments : List String) : IO UInt32 := do
  let outcome ← run systemAccess arguments
  IO.print outcome.stdout
  IO.eprint outcome.stderr
  return outcome.exitCode.toUInt32

end ScoreScript.CommandLine

def main (arguments : List String) : IO UInt32 :=
  ScoreScript.CommandLine.runProgram arguments
