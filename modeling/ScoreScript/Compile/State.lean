import ScoreScript.Config
import ScoreScript.Tree.Grouping
import ScoreScript.Variable

/-!
# The state of a compilation

Everything that one compilation knows: its settings, the scopes and variables made so far, the
output units opened so far, the scope that is current, and the objectives already in use. A step
that fails keeps what it changed before it failed.
-/

namespace ScoreScript

/-- A function of the output: what happens in a scope and in those below it that are no units of
their own. -/
structure OutputUnit where
  path : String
  scope : ScopeId
  position : Position
deriving DecidableEq

structure State where
  config : Config
  source : Nat
  scopes : ScopeTree
  vars : Array Variable
  units : List OutputUnit
  /-- The scope in which names are looked up and declared. -/
  current : ScopeId
  objectives : List String
  /-- The number that the next generated objective is tried with. -/
  nextObjective : UInt64

namespace State

def layout (state : State) : Layout :=
  { source := state.source, separator := state.config.separator }

/-- A compilation before its first step. The register objective is in use and is set up and torn
down with the output. -/
def start (config : Config) (source : Nat) : State :=
  let objective := config.registerObjective
  { config, source
    scopes := ({} : ScopeTree).enter ScopeTree.root (.emitted (.ofObjective objective "dummy"))
    vars := #[]
    units := []
    current := ScopeTree.root
    objectives := [objective]
    nextObjective := 0 }

/-- The variable that a name stands for in the current scope. -/
def resolve (state : State) (name : String) : Option VarId :=
  state.scopes.resolve state.current name

/-- The commands entered so far for when functions run, in order. -/
def emitted (state : State) : List Command :=
  state.scopes.log.flatMap (fun entry =>
    match entry.event with
    | .emitted emission => emission.activation
    | .declared _ => [])

def call (state : State) (path : String) : Command :=
  .call state.config.nameSpace path

/-- Whether one of the first `count` variables lives in a register. -/
def predates (state : State) (register : Register) (count : Nat) : Bool :=
  (state.vars.take count).any (fun var => var.value.register? == some register)

end State

abbrev Compile := ExceptT Fault (StateM State)

namespace Compile

/-- The outcome of a step and the state after it. -/
def runFrom {α : Type} (step : Compile α) (state : State) : Except Fault α × State :=
  step.run.run state

/-- A step that never fails: its result is the outcome of another. -/
def attempt {α : Type} (step : Compile α) : Compile (Except Fault α) :=
  ExceptT.mk fun state =>
    let (outcome, next) := step.runFrom state
    (.ok outcome, next)

def onScopes {α : Type} (edit : ScopeTree.Edit α) : Compile α :=
  ExceptT.mk fun state =>
    let (outcome, scopes) := edit.run.run state.scopes
    (outcome, { state with scopes })

/-- Run a step with another scope as the current one, which is the old one again afterwards, also
when the step fails. -/
def inScope {α : Type} (scope : ScopeId) (step : Compile α) : Compile α :=
  ExceptT.mk fun state =>
    let (outcome, next) := step.runFrom { state with current := scope }
    (outcome, { next with current := state.current })

/-! ## Variables -/

def var (id : VarId) : Compile Variable := do
  match (← get).vars[id]? with
  | some var => return var
  | none => throw ⟨.unknownVariable id, default⟩

def modifyVar (id : VarId) (change : Variable → Variable) : Compile Unit := do
  let _ ← var id
  modify fun state => { state with vars := state.vars.modify id change }

def setValue (id : VarId) (value : Value) : Compile Unit :=
  modifyVar id (fun var => { var with value })

def registerOf? (id : VarId) : Compile (Option Register) := do
  return (← var id).value.register?

/-! ## Types and names -/

def typeNamed (name : String) (position : Position) : Except Fault ValueType :=
  match ValueType.ofName? name with
  | some type => .ok type
  | none => .error ⟨.unknownType name, position⟩

def checkModifiers (type : ValueType) (access : Access) (usage : Usage) (position : Position) :
    Except Fault Unit := do
  if !type.accesses.contains access then throw ⟨.refusedModifier access.word type, position⟩
  if usage.isChecked && !type.usages.contains usage then
    throw ⟨.refusedModifier usage.word type, position⟩

def reservedWords : List String :=
  ["if", "else", "new", "true", "false", "public", "private", "static", "const"]

/-- ASCII letters, digits and underscores, of which the first is no digit. -/
def isIdentifier (name : String) : Bool :=
  match name.toList with
  | [] => false
  | c :: rest => (c.isAlpha || c == '_') && rest.all (fun c => c.isAlphanum || c == '_')

def checkName (config : Config) (name : String) (position : Position) : Except Fault Unit := do
  if !isIdentifier name then throw ⟨.badName name .notAnIdentifier, position⟩
  if reservedWords.contains name || (ValueType.ofName? name).isSome then
    throw ⟨.badName name .reserved, position⟩
  if config.anonymousPrefix.toList.isPrefixOf name.toList then
    throw ⟨.badName name .generated, position⟩

/-! ## Scopes and units -/

/-- Make scopes with generated names inside the current one. -/
def createChildren (count : Nat) : Compile (List ScopeId) := do
  let state ← get
  onScopes (ScopeTree.createChildren state.current state.config.anonymousPrefix count)

/-- The scope of the fields of a variable, which is made when first asked for. -/
def innerScope (id : VarId) : Compile ScopeId := do
  let owner ← var id
  match owner.inner with
  | some inner => return inner
  | none =>
      let inner ← onScopes (ScopeTree.createChild owner.scope owner.name)
      modifyVar id (fun var => { var with inner := some inner })
      return inner

/-- Make a scope the root of an output unit; the result is its path. -/
def addUnit (scope : ScopeId) (position : Position) : Compile String := do
  onScopes (ScopeTree.markUnit scope)
  let path ← (← get).scopes.path scope
  modify fun state => { state with units := state.units ++ [⟨path, scope, position⟩] }
  return path

/-- Open the unit of the whole script and make its scope the current one. -/
def openEntry : Compile ScopeId := do
  let state ← get
  let scope ← onScopes (ScopeTree.createChild ScopeTree.root state.config.entry)
  let _ ← addUnit scope (Position.start state.source)
  modify fun state => { state with current := scope }
  return scope

/-- Open a unit with a generated name inside the current scope, which stays the current one. -/
def openUnit (position : Position) : Compile (String × ScopeId) := do
  let state ← get
  let name ← onScopes (ScopeTree.nextAnonymous state.current state.config.anonymousPrefix)
  let scope ← onScopes (ScopeTree.createChild state.current name)
  let path ← addUnit scope position
  return (path, scope)

/-! ## Output -/

def enter (emission : Emission) : Compile Unit := do
  onScopes (ScopeTree.emit (← get).current emission)

/-- Enter commands for when the function of the current scope runs; no entry is made for none. -/
def emit (commands : List Command) : Compile Unit :=
  if commands.isEmpty then return else enter { activation := commands }

def emitCall (path : String) : Compile Unit := do
  emit [(← get).call path]

/-! ## Objectives -/

def objectiveId (nameSpace : String) (n : UInt64) : String :=
  nameSpace ++ "." ++ Base62.render n.toNat

/-- The first number from `n` on whose objective is not in use, trying at most `bound` numbers that
are. The largest number is followed by zero. -/
def freeObjective (nameSpace : String) (used : List String) : Nat → UInt64 → UInt64
  | 0, n => n
  | bound + 1, n =>
      if used.contains (objectiveId nameSpace n) then freeObjective nameSpace used bound (n + 1)
      else n

/-- An identifier that no objective uses. Different numbers give different identifiers, so no more
numbers are passed over than there are objectives in use. -/
def nextObjective : Compile String := do
  let state ← get
  let nameSpace := state.config.nameSpace
  let n := freeObjective nameSpace state.objectives state.objectives.length state.nextObjective
  modify fun state => { state with nextObjective := n + 1 }
  return objectiveId nameSpace n

def claimObjective (id : String) (position : Position) : Compile Unit := do
  if (← get).objectives.contains id then throw ⟨.duplicateObjective id, position⟩
  modify fun state => { state with objectives := state.objectives ++ [id] }

end Compile

end ScoreScript
