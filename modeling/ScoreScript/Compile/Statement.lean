import ScoreScript.Compile.Expression

/-!
# Statements

A statement is an `if`, a block, a declaration or an expression. The bodies of an `if` are units of
their own. A condition known while compiling leaves only the body that is taken; any other guards
the calls of the bodies.
-/

namespace ScoreScript

namespace Compile

def isModifier (word : String) : Bool :=
  (Access.ofWord? word).isSome || (Usage.ofWord? word).isSome

/-- Whether the trees of a statement declare a variable: they start with a modifier, or with a type
and a single word. -/
def isDeclaration (items : List Tree) : Bool :=
  match items with
  | [] => false
  | first :: rest =>
      match first.word? with
      | none => false
      | some word =>
          isModifier word || ((ValueType.ofName? word).isSome &&
            match rest with
            | [] => false
            | name :: _ => name.isLeaf)

/-- The modifiers at the start of a declaration, and the trees after them. -/
def readModifiers (access : Option Access) (usage : Option Usage) :
    List Tree → Except Fault (Option Access × Option Usage × List Tree)
  | [] => .ok (access, usage, [])
  | first :: rest =>
      match first.word? with
      | none => .ok (access, usage, first :: rest)
      | some word =>
          match Access.ofWord? word with
          | some found =>
              if access.isSome then .error ⟨.repeatedAccess, first.position⟩
              else readModifiers (some found) usage rest
          | none =>
              match Usage.ofWord? word with
              | some found =>
                  if usage.isSome then .error ⟨.repeatedUsage, first.position⟩
                  else readModifiers access (some found) rest
              | none => .ok (access, usage, first :: rest)

end Compile

namespace Engine

open Compile

/-- The value that a declaration gives its variable, from the trees after the name. -/
def initialValue (engine : Engine) (name : String) (rest : List Tree) :
    Compile (Option VarId) := do
  match rest with
  | [] => return none
  | eq :: value =>
      if eq.isWord "=" then return some (← engine.evaluateItems value eq.position)
      else
        throw ⟨.unexpectedAfterName (← get).config.separator name eq.shown, eq.position⟩

/-- Compile a declaration. The value is evaluated before the name exists, so that a name in it is
one declared earlier. -/
def writeDeclaration (engine : Engine) (items : List Tree) : Compile Unit := do
  let position := startOf items default
  let (access, usage, items) ← readModifiers none none items
  match items with
  | [] => throw ⟨.expectedType, position⟩
  | typeTree :: items =>
      let typeToken ← typeTree.asLeaf
      let type ← typeNamed typeToken.text typeToken.position
      match items with
      | [] => throw ⟨.expectedName type, typeToken.position⟩
      | nameTree :: rest =>
          let nameToken ← nameTree.asLeaf
          let value ← engine.initialValue nameToken.text rest
          let usage := usage.getD .ordinary
          let id ← declare type.name (access.getD .hidden) usage nameToken.text nameToken.position
          match value with
          | some value =>
              let _ ← engine.operate id .assign value position
          | none =>
              if usage = .constant then
                throw ⟨.constantWithoutValue nameToken.text, nameToken.position⟩

/-- The register that both guards of an `if` with two bodies read. The first body may assign the
variable of the condition, so a register that is older than the condition is copied first. -/
def guardRegister (register : Register) (existing : Nat) (position : Position) :
    Compile Register := do
  if !(← get).predates register existing then return register
  let snapshot ← temporary ValueType.bool.name position
  emit (← store (.resident register) snapshot position)
  match ← operand snapshot position with
  | .resident copy => return copy
  | .constant _ => throw ⟨.conditionWithoutRegister, position⟩

/-- Compile a body and enter its call under a guard: the body runs if the register is zero, or
unless it is. -/
def callGuarded (engine : Engine) (ifZero : Bool) (register : Register) (body : Tree) :
    Compile Unit := do
  let path ← engine.compileBlock body
  emit [.guarded ifZero (.inRange register (.exactly 0)) ((← get).call path)]

def writeBranches (engine : Engine) (condition body : Tree) (other : Option Tree) :
    Compile Unit := do
  let position := condition.position
  let existing := (← get).vars.size
  let value ← engine.evaluateTree condition
  let value ← cast value ValueType.bool.name position
  match ← operand value position with
  | .constant score =>
      match if score != 0 then some body else other with
      | some taken => engine.callBlock taken
      | none => return
  | .resident register =>
      match other with
      | none => engine.callGuarded false register body
      | some other =>
          let register ← guardRegister register existing position
          engine.callGuarded false register body
          engine.callGuarded true register other

def writeIf (engine : Engine) (tree : Tree) : Compile Unit := do
  match ← tree.asChildren with
  | [_, condition, body] => engine.writeBranches condition body none
  | [_, condition, body, _, other] => engine.writeBranches condition body (some other)
  | _ => throw ⟨.malformedIf, tree.position⟩

def isBlock : List Tree → Bool
  | [.group _ .brace _ _] => true
  | _ => false

/-- Compile a statement with `engine` for what lies deeper. -/
def writeStatement (engine : Engine) (tree : Tree) : Compile Unit := do
  let items := tree.items
  match items with
  | [] =>
      let _ ← engine.evaluate items tree.position
  | first :: _ =>
      if (first.word?.map Reader.isKeyword).getD false then engine.writeIf tree
      else if first.isWord "else" then throw ⟨.strayElse, first.position⟩
      else if isBlock items then engine.callBlock first
      else if isDeclaration items then engine.writeDeclaration items
      else
        let _ ← engine.evaluate items tree.position

end Engine

end ScoreScript
