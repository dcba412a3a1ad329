import ScoreScript.Compile.Declare

/-!
# Reading and storing values

Scores are shared by `int` and `bool`: they are constants or live in registers. Texts and objective
references are only ever known while compiling.
-/

namespace ScoreScript

inductive Operand where
  | constant (score : Score)
  | resident (register : Register)
deriving DecidableEq

namespace Compile

def operand (id : VarId) (position : Position) : Compile Operand := do
  let owner ← var id
  match owner.value with
  | .int score => return .constant score
  | .register register => return .resident register
  | .unset => throw ⟨.unassignedVariable owner.name, position⟩
  | .text _ | .objective .. => throw ⟨.notAScore owner.describe owner.value, position⟩

/-- The score that a variable of a type takes from an operand: a truth value is 0 or 1. -/
def normalize (type : ValueType) (source : Operand) : Operand :=
  match type, source with
  | .bool, .constant score => .constant (if score = 0 then 0 else 1)
  | _, source => source

/-- Store a score in a variable. A variable in a register is set or copied to by a command, which
is the result and still to be entered; one without a value is bound. -/
def store (source : Operand) (target : VarId) (position : Position) : Compile (List Command) := do
  let owner ← var target
  match owner.value, normalize owner.type source with
  | .register register, .constant score => return [.set register score]
  | .register register, .resident other =>
      return if register = other then [] else [.copy register other]
  | .unset, .constant score =>
      setValue target (.int score)
      return []
  | .unset, .resident other =>
      if owner.usage = .constant then throw ⟨.constantFromRegister owner.name, position⟩
      setValue target (.register other)
      return []
  | .int _, _ => throw ⟨.constantReassigned owner.name, position⟩
  | .text _, _ => throw ⟨.notAScore owner.describe owner.value, position⟩
  | .objective .., _ => throw ⟨.notAScore owner.describe owner.value, position⟩

def textOf (id : VarId) (position : Position) : Compile String := do
  let owner ← var id
  match owner.value with
  | .text text => return text
  | .unset => throw ⟨.unassignedVariable owner.name, position⟩
  | .int _ | .register _ | .objective .. => throw ⟨.notAText owner.describe owner.value, position⟩

def storeText (text : String) (target : VarId) (position : Position) : Compile Unit := do
  let owner ← var target
  if owner.type ≠ .string then throw ⟨.incompatibleCopy .string owner.type.name, position⟩
  if owner.value ≠ .unset then throw ⟨.textReassigned owner.name, position⟩
  setValue target (.text text)

/-- The identifier and criterion of the objective that a variable refers to. They come as a pair, so there is
no objective without an identifier to report. -/
def referent (id : VarId) (position : Position) : Compile (String × String) := do
  let owner ← var id
  match owner.value with
  | .objective id criterion => return (id, criterion)
  | .unset | .int _ | .text _ | .register _ =>
      throw ⟨.unassignedObjective owner.name, position⟩

/-- Let a variable refer to an objective, and bring its criterion field up to date. -/
def bindObjective (target : VarId) (id criterion : String) (position : Position) :
    Compile Unit := do
  let owner ← var target
  if owner.usage = .constant ∧ owner.value ≠ .unset then
    throw ⟨.constantReassigned owner.name, position⟩
  match owner.member? criterionField with
  | some (.field field) => setValue field (.text criterion)
  | _ => pure ()
  setValue target (.objective id criterion)

/-- Copy a variable into another, by the rules of the type of the first. The commands that copy a
score are the result and still to be entered. -/
def copyTo (source target : VarId) (position : Position) : Compile (List Command) := do
  match (← var source).type with
  | .int =>
      let type := (← var target).type
      if type ≠ .int then throw ⟨.incompatibleCopy .int type.name, position⟩
      store (← operand source position) target position
  | .bool =>
      let type := (← var target).type
      if type ≠ .bool then throw ⟨.incompatibleCopy .bool type.name, position⟩
      store (← operand source position) target position
  | .string =>
      storeText (← textOf source position) target position
      return []
  | .objective =>
      let owner ← var target
      if owner.type ≠ .objective then
        throw ⟨.incompatibleCopy .objective owner.describe, position⟩
      let (id, criterion) ← referent source position
      bindObjective target id criterion position
      return []

end Compile

end ScoreScript
