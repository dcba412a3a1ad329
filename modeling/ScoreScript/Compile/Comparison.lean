import ScoreScript.Compile.Storage

/-!
# Comparing scores

Two constants compare at once. Otherwise the result is a fresh truth value, set to 0 and then to 1
where the condition holds. A constant on the left is moved to the right by turning the comparison
around.
-/

namespace ScoreScript

namespace Operator

def holds? (op : Operator) (a b : Score) : Option Bool :=
  match op with
  | greater => some (decide (b < a))
  | greaterEqual => some (decide (b ≤ a))
  | equal => some (a == b)
  | notEqual => some (a != b)
  | less => some (decide (a < b))
  | lessEqual => some (decide (a ≤ b))
  | _ => none

/-- The comparison that holds between `b` and `a` where this one holds between `a` and `b`. -/
def flip? : Operator → Option Operator
  | greater => some less
  | greaterEqual => some lessEqual
  | less => some greater
  | lessEqual => some greaterEqual
  | equal => some equal
  | notEqual => some notEqual
  | _ => none

/-- The comparison of a condition that an operator stands for. -/
def comparison? : Operator → Option Comparison
  | greater => some .greater
  | greaterEqual => some .greaterEqual
  | equal => some .equal
  | less => some .less
  | lessEqual => some .lessEqual
  | _ => none

/-- The scores that stand in a comparison to `c`; there may be none of them. -/
def range? (op : Operator) (c : Score) : Option (Option ScoreRange) :=
  match op with
  | greater => some (if c = Int32.maxValue then none else some (.atLeast (c + 1)))
  | greaterEqual => some (some (.atLeast c))
  | equal => some (some (.exactly c))
  | less => some (if c = Int32.minValue then none else some (.atMost (c - 1)))
  | lessEqual => some (some (.atMost c))
  | _ => none

end Operator

namespace Compile

/-- What an operator gives, or a fault when it gives nothing. -/
def orFault {α : Type} (found : Option α) (cause : Cause) (position : Position) : Except Fault α :=
  match found with
  | some value => .ok value
  | none => .error ⟨cause, position⟩

/-- The command that sets `target` to 1 where the score in `left` stands in a comparison to
`right`; there is none when no score does. -/
def guardedSet (target left : Register) (op : Operator) (right : Operand) (position : Position) :
    Except Fault (List Command) := do
  match right with
  | .resident other =>
      if op = .notEqual then
        return [.guarded false (.compare left .equal other) (.set target 1)]
      let comparison ← orFault op.comparison? (.noScoreComparison op) position
      return [.guarded true (.compare left comparison other) (.set target 1)]
  | .constant c =>
      if op = .notEqual then
        return [.guarded false (.inRange left (.exactly c)) (.set target 1)]
      match ← orFault (op.range? c) (.noScoreRange op) position with
      | some range => return [.guarded true (.inRange left range) (.set target 1)]
      | none => return []

def compareRegister (left : Register) (op : Operator) (right : Operand) (position : Position) :
    Compile VarId := do
  let result ← temporary ValueType.bool.name position
  match ← registerOf? result with
  | none => throw ⟨.boolWithoutRegister, position⟩
  | some target =>
      let commands ← guardedSet target left op right position
      emit (.set target 0 :: commands)
      return result

def compare (left : Operand) (op : Operator) (right : Operand) (position : Position) :
    Compile VarId := do
  match left, right with
  | .constant a, .constant b =>
      constantBool (← orFault (op.holds? a b) (.notAComparison op) position) position
  | .constant a, .resident register =>
      let flipped ← orFault op.flip? (.notAComparison op) position
      compareRegister register flipped (.constant a) position
  | .resident register, right => compareRegister register op right position

end Compile

end ScoreScript
