import ScoreScript.Compile.Arithmetic
import ScoreScript.Compile.Comparison
import ScoreScript.Compile.Engine

/-!
# Operations

The type of the left operand decides what an operator means, and the right operand is converted to
that type. The target has no truth algebra: `!`, `&&` and `||` on registers become a small script
that is compiled as a unit of its own.
-/

namespace ScoreScript

namespace Compile

/-- The fault of an operator that the type of a variable does not define. -/
def undefinedOperation {α : Type} (target : VarId) (op : Operator) (position : Position) :
    Compile α := do
  throw ⟨.undefinedOperation (← var target).type op, position⟩

def operateInt (target : VarId) (op : Operator) (right : VarId) (position : Position) :
    Compile VarId := do
  match op.kind with
  | .assignment =>
      let value ← cast right ValueType.int.name position
      emit (← store (← operand value position) target position)
      return target
  | .arithmetic => arithmetic target op (← cast right ValueType.int.name position) position
  | .comparison =>
      let right ← cast right ValueType.int.name position
      let lhs ← operand target position
      let rhs ← operand right position
      compare lhs op rhs position
  | .boolean | .structural => undefinedOperation target op position

/-- Operators on texts, which are all known while compiling. -/
def operateText (target : VarId) (op : Operator) (right : VarId) (position : Position) :
    Compile VarId := do
  match op with
  | .assign =>
      let value ← cast right ValueType.string.name position
      let _ ← copyTo value target position
      return target
  | .add =>
      let right ← cast right ValueType.string.name position
      let lhs ← textOf target position
      let rhs ← textOf right position
      constantText (lhs ++ rhs) position
  | .equal =>
      let right ← cast right ValueType.string.name position
      let lhs ← textOf target position
      let rhs ← textOf right position
      constantBool (lhs == rhs) position
  | .notEqual =>
      let right ← cast right ValueType.string.name position
      let lhs ← textOf target position
      let rhs ← textOf right position
      constantBool (lhs != rhs) position
  | _ => undefinedOperation target op position

/-- Operators on objectives: only references are assigned. -/
def operateObjective (target : VarId) (op : Operator) (right : VarId) (position : Position) :
    Compile VarId := do
  match op with
  | .assign =>
      let value ← cast right ValueType.objective.name position
      let _ ← copyTo value target position
      return target
  | _ => undefinedOperation target op position

/-- A fresh truth value in a register that holds a copy of another. -/
def copyIntoTemporary (value : VarId) (position : Position) : Compile VarId := do
  let temp ← temporary ValueType.bool.name position
  emit (← copyTo value temp position)
  return temp

/-- A name that stands for a variable in the current scope. A variable that cannot be seen from
there is copied into one that can. -/
def nameable (value : VarId) (position : Position) : Compile String := do
  let name := (← var value).name
  if (← get).resolve name = some value then return name
  let temp ← copyIntoTemporary value position
  return (← var temp).name

/-- The script that turns the truth value `name` into its negation. -/
def negationScript (name : String) (separator : Char) : String :=
  let stop := separator.toString
  "if (" ++ name ++ ") \x7b " ++ name ++ " = false" ++ stop ++ " \x7d else \x7b " ++ name ++
    " = true" ++ stop ++ " \x7d"

/-- The script that makes the truth value `name` hold only where `right` holds as well. -/
def conjunctionScript (name right : String) (separator : Char) : String :=
  "if (" ++ name ++ ") \x7b " ++ name ++ " = " ++ right ++ separator.toString ++ " \x7d"

/-- The script that makes the truth value `name` hold also where `right` holds. -/
def disjunctionScript (name right : String) (separator : Char) : String :=
  "if (" ++ right ++ ") \x7b " ++ name ++ " = true" ++ separator.toString ++ " \x7d"

end Compile

namespace Engine

open Compile

/-- Compile a script that the compiler made up as a unit of its own and call it. -/
def callGenerated (engine : Engine) (script : String) (position : Position) : Compile Unit := do
  emitCall (← engine.generate script position)

def negate (engine : Engine) (value : VarId) (position : Position) : Compile VarId := do
  match ← operand value position with
  | .constant score => constantBool (score == 0) position
  | .resident _ =>
      let result ← copyIntoTemporary value position
      let name := (← var result).name
      engine.callGenerated (negationScript name (← get).config.separator) position
      return result

/-- The conjunction or disjunction of two truth values. A constant on one side decides the result
or leaves it to the other side. -/
def connect (engine : Engine) (left : VarId) (conjunction : Bool) (right : VarId)
    (position : Position) : Compile VarId := do
  let lhs ← operand left position
  let rhs ← operand right position
  match lhs, rhs with
  | .constant a, .constant b =>
      constantBool (if conjunction then a != 0 && b != 0 else a != 0 || b != 0) position
  | .constant a, .resident _ =>
      if (a != 0) = conjunction then return right else constantBool (a != 0) position
  | .resident _, .constant b =>
      if (b != 0) = conjunction then return left else constantBool (b != 0) position
  | .resident _, .resident _ =>
      let result ← copyIntoTemporary left position
      let name := (← var result).name
      let other ← nameable right position
      let separator := (← get).config.separator
      let script := if conjunction then conjunctionScript name other separator
        else disjunctionScript name other separator
      engine.callGenerated script position
      return result

def operateBool (engine : Engine) (target : VarId) (op : Operator) (right : VarId)
    (position : Position) : Compile VarId := do
  match op with
  | .assign =>
      let value ← cast right ValueType.bool.name position
      emit (← copyTo value target position)
      return target
  | .negation => engine.negate target position
  | .both => engine.connect target true (← cast right ValueType.bool.name position) position
  | .either => engine.connect target false (← cast right ValueType.bool.name position) position
  | .equal | .notEqual =>
      let right ← cast right ValueType.bool.name position
      let lhs ← operand target position
      let rhs ← operand right position
      compare lhs op rhs position
  | _ => undefinedOperation target op position

def operate (engine : Engine) (target : VarId) (op : Operator) (right : VarId)
    (position : Position) : Compile VarId := do
  if op.kind = .structural then throw ⟨.structuralOperation op, position⟩
  match (← var target).type with
  | .int => operateInt target op right position
  | .bool => engine.operateBool target op right position
  | .string => operateText target op right position
  | .objective => operateObjective target op right position

end Engine

end ScoreScript
