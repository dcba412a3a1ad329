import ScoreScript.Base62
import ScoreScript.Command
import ScoreScript.Fault

/-!
# Scopes

Scopes are tables of names in a tree. They are numbered in the order they are made, so a scope has
a larger number than its parent. What is declared or emitted in a scope is kept in one log for the
whole tree, in the order it happened; the entries of a scope, or of an output unit, are the part
of the log that belongs to it.
-/

namespace ScoreScript

abbrev VarId := Nat

abbrev ScopeId := Nat

structure Scope where
  /-- The segment that the scope adds to the paths below it; empty for none. -/
  name : String
  parent : Option ScopeId
  names : List (String × VarId) := []
  /-- How many generated names were drawn here, those of the ancestors included. -/
  drawn : Nat := 0
  /-- Whether the scope is the root of an output unit. -/
  isUnit : Bool := false

/-- The variable that a name is bound to in the scope itself. -/
def Scope.find? (scope : Scope) (name : String) : Option VarId :=
  scope.names.lookup name

inductive Event where
  | declared (var : VarId)
  | emitted (emission : Emission)
deriving DecidableEq

def Event.isEmission : Event → Bool
  | declared _ => false
  | emitted _ => true

/-- An event, its place in the order of all events, and the scope it belongs to. -/
structure Entry where
  seq : Nat
  scope : ScopeId
  event : Event
deriving DecidableEq

/-- A generated name, the scope that it was drawn in, and what it stood for there at that moment. -/
structure Draw where
  name : String
  scope : ScopeId
  stoodFor : Option VarId

/-- All scopes of a compilation, and what happened in them. -/
structure ScopeTree where
  scopes : Array Scope := #[{ name := "", parent := none }]
  log : List Entry := []
  nextSeq : Nat := 0
  /-- The names drawn so far. No operation looks at them. -/
  draws : List Draw := []

namespace ScopeTree

def root : ScopeId := 0

def size (tree : ScopeTree) : Nat :=
  tree.scopes.size

def scope (tree : ScopeTree) (id : ScopeId) : Except Fault Scope :=
  match tree.scopes[id]? with
  | some scope => .ok scope
  | none => .error ⟨.unknownScope id, default⟩

/-- The scopes made inside a scope, in the order they were made. -/
def children (tree : ScopeTree) (id : ScopeId) : List ScopeId :=
  (List.range tree.size).filter (fun child => (tree.scopes[child]?.bind Scope.parent) == some id)

def entries (tree : ScopeTree) (id : ScopeId) : List Entry :=
  tree.log.filter (fun entry => entry.scope == id)

/-- A scope and what encloses it, innermost first, at most `bound` of them. -/
def ancestryUpTo (tree : ScopeTree) : Nat → ScopeId → List Scope
  | 0, _ => []
  | bound + 1, id =>
      match tree.scopes[id]? with
      | none => []
      | some scope =>
          match scope.parent with
          | none => [scope]
          | some parent => scope :: tree.ancestryUpTo bound parent

/-- A scope and everything that encloses it, innermost first. A parent has a smaller number, so
there are no more of them than the number of the scope. -/
def ancestry (tree : ScopeTree) (id : ScopeId) : List Scope :=
  tree.ancestryUpTo (id + 1) id

/-- The variable that a name is bound to in the scope itself. -/
def lookup (tree : ScopeTree) (id : ScopeId) (name : String) : Option VarId :=
  tree.scopes[id]?.bind (fun scope => scope.find? name)

/-- The variable that a name is bound to in the nearest enclosing scope that binds it. -/
def resolve (tree : ScopeTree) (id : ScopeId) (name : String) : Option VarId :=
  (tree.ancestry id).findSome? (fun scope => scope.find? name)

/-- The names of the scopes from the root down to a scope. -/
def segments (tree : ScopeTree) (id : ScopeId) : List String :=
  ((tree.ancestry id).map Scope.name).reverse.filter (fun name => !name.isEmpty)

/-- The names of the scopes from the root down to a scope, with slashes between them. -/
def path (tree : ScopeTree) (id : ScopeId) : Except Fault String := do
  let _ ← tree.scope id
  return "/".intercalate (tree.segments id)

/-- Whether a scope is `top` or is reached from it without entering another unit; at most `bound`
levels are climbed. -/
def belongsUpTo (tree : ScopeTree) (top : ScopeId) : Nat → ScopeId → Bool
  | 0, _ => false
  | bound + 1, id =>
      id == top ||
        match tree.scopes[id]? with
        | none => false
        | some scope =>
            match scope.parent with
            | none => false
            | some parent => !scope.isUnit && tree.belongsUpTo top bound parent

/-- Whether a scope is `top` or is reached from it without entering another unit. -/
def belongs (tree : ScopeTree) (top id : ScopeId) : Bool :=
  tree.belongsUpTo top (id + 1) id

/-- What happened in a scope and in those below it that are no units of their own. -/
def unitEntries (tree : ScopeTree) (top : ScopeId) : Except Fault (List Entry) := do
  let _ ← tree.scope top
  return tree.log.filter (fun entry => tree.belongs top entry.scope)

/-- A change of the scopes; what it changed before it failed stays changed. -/
abbrev Edit := ExceptT Fault (StateM ScopeTree)

def modifyScope (tree : ScopeTree) (id : ScopeId) (change : Scope → Scope) : ScopeTree :=
  { tree with scopes := tree.scopes.modify id change }

/-- Add a scope; its number is the number of scopes before it. -/
def addScope (tree : ScopeTree) (scope : Scope) : ScopeTree :=
  { tree with scopes := tree.scopes.push scope }

def enter (tree : ScopeTree) (id : ScopeId) (event : Event) : ScopeTree :=
  { tree with
    log := tree.log ++ [⟨tree.nextSeq, id, event⟩]
    nextSeq := tree.nextSeq + 1 }

/-- Make a scope inside another. It goes on counting generated names where its parent stands, so
a name drawn in it differs from every generated name that it can see. -/
def createChild (parent : ScopeId) (name : String) : Edit ScopeId := do
  let tree ← get
  let outer ← tree.scope parent
  set (tree.addScope { name, parent := some parent, drawn := outer.drawn })
  return tree.size

/-- Count a name that is drawn in a scope. -/
def draw (tree : ScopeTree) (id : ScopeId) (name : String) : ScopeTree :=
  { tree.modifyScope id (fun scope => { scope with drawn := scope.drawn + 1 }) with
    draws := tree.draws ++ [⟨name, id, tree.resolve id name⟩] }

def nextAnonymous (id : ScopeId) (namePrefix : String) : Edit String := do
  let tree ← get
  let scope ← tree.scope id
  let name := namePrefix ++ Base62.render scope.drawn
  set (tree.draw id name)
  return name

def createChildren (parent : ScopeId) (namePrefix : String) : Nat → Edit (List ScopeId)
  | 0 => return []
  | count + 1 => do
      let name ← nextAnonymous parent namePrefix
      let child ← createChild parent name
      let children ← createChildren parent namePrefix count
      return child :: children

def markUnit (id : ScopeId) : Edit Unit := do
  let tree ← get
  let _ ← tree.scope id
  set (tree.modifyScope id (fun scope => { scope with isUnit := true }))

def bindName (tree : ScopeTree) (id : ScopeId) (name : String) (var : VarId) : ScopeTree :=
  tree.modifyScope id (fun scope => { scope with names := scope.names ++ [(name, var)] })

/-- Bind a name in a scope. A name of an enclosing scope may be bound again, but not one of the
scope itself. -/
def declare (id : ScopeId) (name : String) (var : VarId) (position : Position) : Edit Unit := do
  let tree ← get
  let scope ← tree.scope id
  if (scope.find? name).isSome then
    throw ⟨.duplicateVariable name (← tree.path id), position⟩
  set ((tree.bindName id name var).enter id (.declared var))

/-- Enter commands into a scope. A place in the order is taken even where there is no such
scope. -/
def emit (id : ScopeId) (emission : Emission) : Edit Unit := do
  let tree ← get
  set { tree with nextSeq := tree.nextSeq + 1 }
  let _ ← tree.scope id
  set (tree.enter id (.emitted emission))

/-- Drop the commands of a scope and of those below it that are no units of their own. What was
declared stays. -/
def discard (top : ScopeId) : Edit Unit := do
  let tree ← get
  let _ ← tree.scope top
  set { tree with
    log := tree.log.filter
      (fun entry => !(entry.event.isEmission && tree.belongs top entry.scope)) }

end ScopeTree

end ScoreScript
