import ScoreScript.CommandLine.Arguments
import ScoreScript.Compiler
import ScoreScript.Config.Json
import ScoreScript.Tree.Json

/-!
# The command line

`build` compiles a script into a directory of function files, and `tree` prints the statements of a
script. A command reads and writes through the access to files that it is given: it ends with an
exit code and what it prints.
-/

namespace ScoreScript.CommandLine

inductive Failure where
  | config (fault : ConfigFault)
  | unreadable (path : String) (fault : FileFault)
  | unwritable (out : String) (fault : FileFault)
  | script (fault : Fault) (path : String)

def Failure.message : Failure → String
  | config fault => "Error: " ++ fault.message
  | unreadable path fault => "Error: cannot read " ++ path ++ ": " ++ fault.message
  | unwritable out fault => "Error: cannot write " ++ out ++ ": " ++ fault.message
  | script fault path =>
      if fault.isInternal then
        fault.renderIn path ++
          "\nThis is a compiler bug; please report it with the script that triggered it."
      else fault.renderIn path

def inputSource : Nat := 0

def inDirectory (directory name : String) : String :=
  if directory.endsWith "/" then directory ++ name else directory ++ "/" ++ name

section Commands

variable {m : Type → Type} [Monad m] (access : FileAccess m)

def settings (path : Option String) : ExceptT Failure m Config := do
  match path with
  | none => return {}
  | some path =>
      let content ← access.read path
      (Config.loadOrDefault content).mapError Failure.config

def script (path : String) : ExceptT Failure m String := do
  let content ← access.read path
  content.mapError (Failure.unreadable path)

/-- Write files into a directory, up to the first that cannot be written. -/
def writeAll (out : String) : List (String × String) → ExceptT Failure m Unit
  | [] => return
  | (name, text) :: files => do
      let outcome ← access.write (inDirectory out name) text
      outcome.mapError (Failure.unwritable out)
      writeAll out files

/-- Compile a script into the files of a directory; the result is what is printed. -/
def build (config : Config) (input out : String) (nameSpace : Option String) :
    ExceptT Failure m String := do
  let config := { config with nameSpace := nameSpace.getD config.nameSpace }
  config.validate.mapError Failure.config
  let text ← script access input
  let package ← (compileSource inputSource text config).mapError (Failure.script · input)
  writeAll access out package.files
  let count := toString package.files.length
  return "Wrote " ++ count ++ " functions to " ++ out ++ "\n"

def showTrees (config : Config) (input : String) (json : Bool) : ExceptT Failure m String := do
  let text ← script access input
  let layout : Layout := ⟨inputSource, config.separator⟩
  let trees ← (layout.parseStatements text).mapError (Failure.script · input)
  if json then return (Json.array (Tree.toJsonList trees)).render ++ "\n"
  else return String.join (trees.map (fun tree => tree.render ++ "\n"))

def Invocation.run (invocation : Invocation) : ExceptT Failure m String := do
  let config ← settings access invocation.config
  match invocation.action with
  | .build input out nameSpace => build access config input out nameSpace
  | .tree input json => showTrees access config input json

end Commands

structure Outcome where
  exitCode : Nat
  stdout : String := ""
  stderr : String := ""

def versionText : String :=
  "mcs-cli 0.1.0\n"

def helpText : String :=
  String.join (List.map (· ++ "\n")
    ["Compile scripts into scoreboard command functions",
      "",
      "Usage: mcs-cli [OPTIONS] <COMMAND>",
      "",
      "Commands:",
      "  build  Compile a script into a directory of .mcfunction files",
      "  tree   Print the tree of each top-level statement",
      "  help   Print this message or the help of the given subcommand(s)",
      "",
      "Options:",
      "      --config <CONFIG>  Compiler config file (JSON)",
      "  -v, --verbose...       Log more; repeat for trace output",
      "  -h, --help             Print help",
      "  -V, --version          Print version"])

def Stop.outcome : Stop → Outcome
  | help => { exitCode := 0, stdout := helpText }
  | version => { exitCode := 0, stdout := versionText }
  | misuse => { exitCode := 2, stderr := helpText }

def run {m : Type → Type} [Monad m] (access : FileAccess m) (arguments : List String) :
    m Outcome := do
  match Invocation.ofArguments arguments with
  | .error stop => return stop.outcome
  | .ok invocation =>
      match ← (invocation.run access).run with
      | .error failure => return { exitCode := 1, stderr := failure.message ++ "\n" }
      | .ok printed => return { exitCode := 0, stdout := printed }

end ScoreScript.CommandLine
