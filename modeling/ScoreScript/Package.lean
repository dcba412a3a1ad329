import ScoreScript.Compile.State

/-!
# Packages

The output of a compilation: functions under their paths, each a list of commands. The function
`load` sets everything up, `unload` tears it down in reverse order, and every output unit has a
function of its own.
-/

namespace ScoreScript

/-- The functions of a namespace, in the order of their files. -/
structure Package where
  nameSpace : String
  functions : List (String × List Command)
deriving DecidableEq

namespace Package

/-- Give a path its commands. A path that has some already keeps its place. -/
def insert (functions : List (String × List Command)) (path : String) (commands : List Command) :
    List (String × List Command) :=
  if functions.any (fun function => function.1 == path) then
    functions.map (fun function => if function.1 = path then (path, commands) else function)
  else functions ++ [(path, commands)]

def lines (package : Package) : List (String × List String) :=
  package.functions.map (fun function => (function.1, function.2.map Command.render))

/-- The text of a function: its lines, each with a line break at its end. -/
def fileText (commands : List Command) : String :=
  let text := "\n".intercalate (commands.map Command.render)
  if text.isEmpty then text else text ++ "\n"

/-- The files of a package: their names, relative to its directory, and their texts. -/
def files (package : Package) : List (String × String) :=
  package.functions.map (fun function => (function.1 ++ ".mcfunction", fileText function.2))

end Package

namespace State

def entryCommands (state : State) (phase : Phase) (entry : Entry) : Except Fault (List Command) :=
  match entry.event with
  | .emitted emission => .ok (emission.commands phase)
  | .declared id =>
      match state.vars[id]? with
      | some var => .ok (var.commands phase)
      | none => .error ⟨.unknownVariable id, default⟩

def phaseCommands (state : State) (phase : Phase) : List Entry → Except Fault (List Command)
  | [] => .ok []
  | entry :: entries => do
      let first ← state.entryCommands phase entry
      let rest ← state.phaseCommands phase entries
      return first ++ rest

def unitTable (state : State) : List OutputUnit → Except Fault (List (String × List Entry))
  | [] => .ok []
  | unit :: units => do
      let entries ← state.scopes.unitEntries unit.scope
      let rest ← state.unitTable units
      return (unit.path, entries) :: rest

def unitFunctions (state : State) :
    List (String × List Entry) → List (String × List Command) →
      Except Fault (List (String × List Command))
  | [], functions => .ok functions
  | (path, entries) :: units, functions => do
      let commands ← state.phaseCommands .activation entries
      state.unitFunctions units (Package.insert functions path commands)

def flush (state : State) : Except Fault Package := do
  let outside ← state.scopes.unitEntries ScopeTree.root
  let units ← state.unitTable state.units
  let all := outside ++ units.flatMap Prod.snd
  let setup ← state.phaseCommands .setup all
  let before ← state.phaseCommands .activation outside
  let tick ← state.phaseCommands .tick all
  let teardown ← state.phaseCommands .teardown all
  let functions := [("load", setup ++ before)]
  let functions := if tick.isEmpty then functions else Package.insert functions "tick" tick
  let functions := Package.insert functions "unload" teardown.reverse
  let functions ← state.unitFunctions units functions
  return { nameSpace := state.config.nameSpace, functions }

end State

end ScoreScript
