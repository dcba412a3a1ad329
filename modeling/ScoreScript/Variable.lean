import ScoreScript.Scope

/-!
# Variables

A variable is a named value in a scope. Only objectives have members; a member is a variable of
its own, a property that is read or assigned through the owner, or a method.
-/

namespace ScoreScript

/-- What a script can read or assign as if it were a variable. -/
inductive Property where
  | id
  /-- The name under which an objective is shown. -/
  | displayName
deriving DecidableEq

namespace Property

def isReadable : Property → Bool
  | id => true
  | displayName => false

def isAssignable : Property → Bool
  | id => false
  | displayName => true

end Property

inductive Method where
  | get
  | set
  | reset
deriving DecidableEq

inductive Member where
  | field (var : VarId)
  | property (property : Property)
  | method (method : Method)
deriving DecidableEq

structure Variable where
  type : ValueType
  access : Access
  usage : Usage
  name : String
  scope : ScopeId
  /-- The scope of the fields, once there are any. -/
  inner : Option ScopeId := none
  value : Value := .unset
  members : List (String × Member) := []
  /-- Whether the variable is the result of a constructor, and so sets up and tears down what it
  refers to. -/
  constructed : Bool := false
  position : Position

namespace Variable

def describe (var : Variable) : String :=
  var.type.name ++ " " ++ var.name

def isConstant (var : Variable) : Bool :=
  var.value.isConstant

def isResident (var : Variable) : Bool :=
  var.value.isResident

def member? (var : Variable) (name : String) : Option Member :=
  var.members.lookup name

/-- The objective that a variable sets up, with its criterion. -/
def ownObjective? (var : Variable) : Option (String × String) :=
  match var.constructed, var.value with
  | true, .objective id criterion => some (id, criterion)
  | _, _ => none

def commands (var : Variable) (phase : Phase) : List Command :=
  match var.type, var.ownObjective? with
  | .objective, some (id, criterion) => (Emission.ofObjective id criterion).commands phase
  | _, _ => []

end Variable

/-- The phases to which the variables of a type can contribute. -/
def ValueType.contributes : ValueType → Phase → Bool
  | .objective, .setup => true
  | .objective, .teardown => true
  | .objective, .activation => false
  | .objective, .tick => false
  | .int, _ | .bool, _ | .string, _ => false

end ScoreScript
