import ScoreScript.Compile.Overload

/-!
# Objectives

`new objective(...)` makes an objective, which the output sets up and tears down. Copying a
variable only copies the reference. Scores of an objective are read and written through its
methods.
-/

namespace ScoreScript.Compile

def defaultCriterion : String :=
  "dummy"

/-- What `new objective` accepts: nothing, a criterion, or a criterion and an identifier. -/
def objectiveOverloads : List (List Param) :=
  let criterion : Param := ⟨ValueType.string.name, "criterion"⟩
  let name : Param := ⟨ValueType.string.name, "name"⟩
  [[], [criterion], [criterion, name]]

/-- At most 16 bytes of ASCII letters, digits and `_ . + -`. -/
def isObjectiveId (id : String) : Bool :=
  !id.toList.isEmpty && id.utf8ByteSize ≤ 16 &&
    id.toList.all (fun c => c.isAlphanum || c == '_' || c == '.' || c == '+' || c == '-')

/-- Make an objective from the arguments of its constructor. -/
def construct (args : List VarId) (position : Position) : Compile VarId := do
  let (_, params) ← select ValueType.objective.name objectiveOverloads args position
  let criterion ← match params with
    | [] => pure defaultCriterion
    | param :: _ => textOf param position
  let id ← match params with
    | _ :: param :: _ => textOf param position
    | _ => nextObjective
  if !isObjectiveId id then throw ⟨.badName id .notAnObjective, position⟩
  claimObjective id position
  let result ← temporary ValueType.objective.name position
  bindObjective result id criterion position
  modifyVar result (fun var => { var with constructed := true })
  return result

/-- Read the property of an objective that a script calls `name`. -/
def readProperty (property : Property) (name : String) (owner : VarId) (position : Position) :
    Compile VarId := do
  match property with
  | .id =>
      let (id, _) ← referent owner position
      constantText id position
  | .displayName => throw ⟨.writeOnlyProperty name, position⟩

/-- Assign the property of an objective that a script calls `name`. Every text can be encoded, so that
showing one cannot fail. -/
def assignProperty (property : Property) (name : String) (owner value : VarId)
    (position : Position) : Compile Unit := do
  match property with
  | .id => throw ⟨.readOnlyProperty name, position⟩
  | .displayName =>
      let (id, _) ← referent owner position
      let shown ← textOf (← cast value ValueType.string.name position) position
      emit [.showObjective id shown]

/-- The score holder that the first of `expected` arguments names. -/
def holderOf (what : String) (expected : Nat) (args : List VarId) (position : Position) :
    Compile String := do
  match args with
  | [] => throw ⟨.wrongArgumentCount what (toString expected) 0, position⟩
  | first :: _ =>
      if args.length ≠ expected then
        throw ⟨.wrongArgumentCount what (toString expected) args.length, position⟩
      let holder ← textOf (← cast first ValueType.string.name position) position
      if holder.isEmpty || holder.toList.any Text.isBlank then
        throw ⟨.badName holder .notAHolder, position⟩
      return holder

/-- Call a method of an objective. Only reading a score gives a value, which lives in the register
that is read. -/
def callMethod (method : Method) (owner : VarId) (args : List VarId) (position : Position) :
    Compile (Option VarId) := do
  match method with
  | .get =>
      let holder ← holderOf "Get" 1 args position
      let (objective, _) ← referent owner position
      return some (← bindRegister ValueType.int.name ⟨holder, objective⟩ position)
  | .set =>
      let holder ← holderOf "Set" 2 args position
      let (objective, _) ← referent owner position
      match args with
      | _ :: value :: _ =>
          let source ← operand (← cast value ValueType.int.name position) position
          let target ← bindRegister ValueType.int.name ⟨holder, objective⟩ position
          emit (← store source target position)
          return none
      | _ => throw ⟨.wrongArgumentCount "Set" "2" args.length, position⟩
  | .reset =>
      let holder ← holderOf "Reset" 1 args position
      let (objective, _) ← referent owner position
      emit [.reset ⟨holder, objective⟩]
      return none

end ScoreScript.Compile
