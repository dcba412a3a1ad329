import ScoreScript.Compile.Storage

/-!
# Computing with scores

Two constants are computed at once. Otherwise the left score is copied into a fresh register, and
one command changes it in place.
-/

namespace ScoreScript

/-- The score that an arithmetic operator gives. The quotient of the smallest score by minus one
wraps to the smallest score, and its remainder is zero. -/
def Operator.fold (op : Operator) (a b : Score) : Except Cause Score :=
  match op with
  | .add => .ok (a + b)
  | .subtract => .ok (a - b)
  | .multiply => .ok (a * b)
  | .divide =>
      if b = 0 then .error (.divisionByZero a op b) else .ok ((Score.floorDiv? a b).getD a)
  | .modulo =>
      if b = 0 then .error (.divisionByZero a op b) else .ok ((Score.floorMod? a b).getD 0)
  | _ => .error (.notArithmetic op)

namespace Compile

def located {α : Type} (outcome : Except Cause α) (position : Position) : Except Fault α :=
  match outcome with
  | .ok value => .ok value
  | .error cause => .error ⟨cause, position⟩

/-- A register that holds a constant, for commands that take registers only. -/
def materialize (score : Score) (position : Position) : Compile Register := do
  let temp ← temporary ValueType.int.name position
  emit (← store (.constant score) temp position)
  match ← registerOf? temp with
  | some register => return register
  | none => throw ⟨.intWithoutRegister, position⟩

/-- The command that adds a score in place; a negative one is taken away. -/
def addCommand (target : Register) (amount : Score) : Command :=
  if 0 ≤ amount then .add target amount else .remove target (-amount)

/-- The command that changes `target` by a score. Constants are added and taken away directly,
except for the smallest score, which has no counterpart. -/
def changeCommand (target : Register) (op : Operator) (right : Operand) (position : Position) :
    Compile Command := do
  match right with
  | .resident register => return .operate target op register
  | .constant score =>
      if op = .add ∧ score ≠ Int32.minValue then return addCommand target score
      if op = .subtract ∧ score ≠ Int32.minValue then return addCommand target (-score)
      return .operate target op (← materialize score position)

def arithmetic (left : VarId) (op : Operator) (right : VarId) (position : Position) :
    Compile VarId := do
  let lhs ← operand left position
  let rhs ← operand right position
  match lhs, rhs with
  | .constant a, .constant b => constantInt (← located (op.fold a b) position) position
  | lhs, rhs =>
      let result ← temporary ValueType.int.name position
      match ← registerOf? result with
      | none => throw ⟨.intWithoutRegister, position⟩
      | some target =>
          let copied ← store lhs result position
          let change ← changeCommand target op rhs position
          emit (copied ++ [change])
          return result

end Compile

end ScoreScript
