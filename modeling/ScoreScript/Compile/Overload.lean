import ScoreScript.Compile.Conversion

/-!
# Choosing among parameter lists

A constructor can accept several lists of parameters. The first list wins that has as many
parameters as there are arguments and whose types all arguments convert to. A list that was tried
in vain leaves no commands behind; any other fault ends the call.
-/

namespace ScoreScript

/-- A parameter: the name of its type, and its own name. -/
structure Param where
  type : String
  name : String
deriving DecidableEq

namespace Compile

def castAll (position : Position) : List (Param × VarId) → Compile (List VarId)
  | [] => return []
  | (param, arg) :: rest => do
      let value ← cast arg param.type position
      return value :: (← castAll position rest)

/-- Declare each parameter in the current scope and copy its value into it. -/
def declareParams (position : Position) : List (Param × VarId) → Compile (List VarId)
  | [] => return []
  | (param, value) :: rest => do
      let id ← declareInternal param.type .hidden .parameter param.name position
      emit (← copyTo value id position)
      return id :: (← declareParams position rest)

/-- Bind arguments to parameters in the current scope. Every argument is converted before any
parameter is declared. -/
def bindParams (what : String) (params : List Param) (args : List VarId) (position : Position) :
    Compile (List VarId) := do
  if params.length ≠ args.length then
    throw ⟨.wrongArgumentCount what (toString params.length) args.length, position⟩
  let values ← castAll position (params.zip args)
  declareParams position (params.zip values)

/-- Try the parameter lists in order, each in a scope of its own; `index` lists were tried before.
The result tells whether one of the lists had the right length. -/
def tryOverloads (what : String) (args : List VarId) (position : Position) :
    Nat → Bool → List (List Param × ScopeId) → Compile (Bool ⊕ (Nat × List VarId))
  | _, fitting, [] => return .inl fitting
  | index, fitting, (params, scope) :: rest => do
      match ← attempt (inScope scope (bindParams what params args position)) with
      | .ok bound => return .inr (index, bound)
      | .error fault =>
          match fault.kind with
          | .wrongArgumentCount =>
              onScopes (ScopeTree.discard scope)
              tryOverloads what args position (index + 1) fitting rest
          | .cannotCast =>
              onScopes (ScopeTree.discard scope)
              tryOverloads what args position (index + 1) true rest
          | _ => throw fault

def describeTypes : List VarId → Compile (List String)
  | [] => return []
  | id :: ids => do
      let type := (← var id).type
      return type.name :: (← describeTypes ids)

/-- Bind arguments to the first parameter list that takes them: its number, and the parameters. -/
def select (what : String) (overloads : List (List Param)) (args : List VarId)
    (position : Position) : Compile (Nat × List VarId) := do
  let scopes ← createChildren overloads.length
  match ← tryOverloads what args position 0 false (overloads.zip scopes) with
  | .inr chosen => return chosen
  | .inl true =>
      let types ← describeTypes args
      throw ⟨.cannotCast ("(" ++ ", ".intercalate types ++ ")")
        ("any overload of '" ++ what ++ "'"), position⟩
  | .inl false =>
      let arities := overloads.map (fun params => toString params.length)
      throw ⟨.wrongArgumentCount what (" or ".intercalate arities) args.length, position⟩

end Compile

end ScoreScript
