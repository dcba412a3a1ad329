import ScoreScript.Compile.State

/-!
# Making variables

A variable is entered into the current scope and then given what its type needs: a register for a
score, members for an objective. A constant gets no register; it waits for its one value.
-/

namespace ScoreScript.Compile

/-- The register of a variable: its holder is the path of the scope with dots for slashes, and then
the name. -/
def registerFor (scope : ScopeId) (name : String) : Compile Register := do
  let state ← get
  let path ← state.scopes.path scope
  let dotted := String.ofList (path.toList.map (fun c => if c = '/' then '.' else c))
  let holder := if path.isEmpty then name else dotted ++ "." ++ name
  return ⟨holder, state.config.registerObjective⟩

/-- Enter a variable without a value into the current scope. -/
def enterVariable (type : ValueType) (access : Access) (usage : Usage) (name : String)
    (position : Position) : Compile VarId := do
  checkModifiers type access usage position
  let state ← get
  let id := state.vars.size
  onScopes (ScopeTree.declare state.current name id position)
  let fresh : Variable := { type, access, usage, name, scope := state.current, position }
  modify fun state => { state with vars := state.vars.push fresh }
  return id

def allocateScore (id : VarId) : Compile Unit := do
  let owner ← var id
  if owner.usage = .constant then return
  setValue id (.register (← registerFor owner.scope owner.name))

/-- The field of an objective that holds its criterion. -/
def criterionField : String :=
  "Criterion"

/-- The members of an objective, given the variable of its criterion. -/
def objectiveMembers (criterion : VarId) : List (String × Member) :=
  [(criterionField, .field criterion), ("Id", .property .id),
    ("DisplayName", .property .displayName), ("Get", .method .get), ("Set", .method .set),
    ("Reset", .method .reset)]

def allocateObjective (id : VarId) : Compile Unit := do
  let inner ← innerScope id
  let owner ← var id
  let criterion ← inScope inner
    (enterVariable .string .shared .ordinary criterionField owner.position)
  modifyVar id (fun var => { var with members := objectiveMembers criterion })

def allocate (type : ValueType) (id : VarId) : Compile Unit :=
  match type with
  | .int | .bool => allocateScore id
  | .string => return
  | .objective => allocateObjective id

def declareInternal (typeName : String) (access : Access) (usage : Usage) (name : String)
    (position : Position) : Compile VarId := do
  let type ← typeNamed typeName position
  let id ← enterVariable type access usage name position
  allocate type id
  return id

def declare (typeName : String) (access : Access) (usage : Usage) (name : String)
    (position : Position) : Compile VarId := do
  checkName (← get).config name position
  declareInternal typeName access usage name position

def anonymous (typeName : String) (usage : Usage) (position : Position) : Compile VarId := do
  let state ← get
  let name ← onScopes (ScopeTree.nextAnonymous state.current state.config.anonymousPrefix)
  declareInternal typeName .hidden usage name position

/-- A fresh variable of its own; a score gets a register of its own. -/
def temporary (typeName : String) (position : Position) : Compile VarId :=
  anonymous typeName .ordinary position

def bindRegister (typeName : String) (register : Register) (position : Position) :
    Compile VarId := do
  let id ← anonymous typeName .result position
  setValue id (.register register)
  return id

def constant (type : ValueType) (value : Value) (position : Position) : Compile VarId := do
  let id ← anonymous type.name .constant position
  setValue id value
  return id

def constantInt (score : Score) (position : Position) : Compile VarId :=
  constant .int (.int score) position

def constantBool (holds : Bool) (position : Position) : Compile VarId :=
  constant .bool (.int (if holds then 1 else 0)) position

def constantText (text : String) (position : Position) : Compile VarId :=
  constant .string (.text text) position

end ScoreScript.Compile
