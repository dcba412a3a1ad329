import ScoreScript.Compile.Operation

/-!
# Members and operators on the right of a value

After a value stands nothing, an operator with its right operand, or a dot with the name of a
member and whatever applies to that member in turn.
-/

namespace ScoreScript.Engine

open Compile

/-- What stands after a value: the words of an operator and its operand, or the words after a
dot. -/
inductive Trailer where
  | operation
  | member
deriving DecidableEq

def operatorOf (tree : Tree) : Except Fault (Operator × Position) :=
  match tree with
  | .group _ _ _ position => .error ⟨.expectedOperator tree.render, position⟩
  | .leaf token =>
      match Operator.ofSymbol? token.text with
      | some op => .ok (op, token.position)
      | none => .error ⟨.unknownOperator token.text, token.position⟩

/-- Apply what stands after the value `target`. The trees of an operation start with the operator,
and those of a member with its name; `position` is where the dot of a member was. -/
def applyTrailer (engine : Engine) (trailer : Trailer) (target : VarId) (position : Position) :
    List Tree → Compile (Option VarId)
  | [] =>
      match trailer with
      | .operation => return some target
      | .member => throw ⟨.expectedMember, position⟩
  | first :: rest =>
      match trailer with
      | .operation => do
          let (op, position) ← operatorOf first
          match op with
          | .access => engine.applyTrailer .member target position rest
          | .new => throw ⟨.operatorBeforeNew, position⟩
          | .negation => throw ⟨.misplacedNegation, position⟩
          | op =>
              if rest.isEmpty then throw ⟨.expectedOperand op, position⟩
              let right ← engine.evaluateItems rest position
              return some (← engine.operate target op right position)
      | .member => do
          let token ← first.asLeaf
          let name := token.text
          let position := token.position
          let owner ← var target
          match owner.member? name with
          | none => throw ⟨.unknownMember owner.type name, position⟩
          | some (.field field) => engine.applyTrailer .operation field position rest
          | some (.property property) =>
              match rest with
              | [] => return some (← readProperty property name target position)
              | op :: value =>
                  if op.isWord "=" then
                    if !property.isAssignable then throw ⟨.readOnlyProperty name, position⟩
                    if value.isEmpty then throw ⟨.expectedOperand .assign, op.position⟩
                    let value ← engine.evaluateItems value position
                    assignProperty property name target value position
                    return none
                  else
                    let result ← readProperty property name target position
                    engine.applyTrailer .operation result position rest
          | some (.method method) =>
              match rest with
              | [] => throw ⟨.expectedMethodArguments name, position⟩
              | arguments :: rest =>
                  let args ← engine.evaluateArguments arguments
                  match ← callMethod method target args position with
                  | some result => engine.applyTrailer .operation result position rest
                  | none =>
                      if rest.isEmpty then return none
                      else throw ⟨.methodWithoutValue name, position⟩

/-- Apply the operator that a tree writes to a value and to what the trees after it give. -/
def operateWord (engine : Engine) (target : VarId) (word : Tree) (rest : List Tree) : Compile (Option VarId) :=
  engine.applyTrailer .operation target word.position (word :: rest)

/-- What a member of a value gives; the trees start with the name of the member. -/
def access (engine : Engine) (target : VarId) (path : List Tree) (position : Position) : Compile (Option VarId) :=
  engine.applyTrailer .member target position path

end ScoreScript.Engine
