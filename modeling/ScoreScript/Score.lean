/-!
# Scores

A score is a signed 32-bit number. Sums, differences and products wrap; division rounds toward
negative infinity, and the remainder has the sign of the divisor.
-/

namespace ScoreScript

/-- The number that a scoreboard keeps for one holder in one objective. -/
abbrev Score := Int32

namespace Score

/-- Decimal digits, with a minus sign before a negative score. -/
def render (score : Score) : String :=
  toString score.toInt

/-- Quotient rounded toward negative infinity. There is none for a zero divisor, nor for the one
quotient that is no score: the smallest score by minus one. -/
def floorDiv? (a b : Score) : Option Score :=
  if b = 0 ∨ (a = Int32.minValue ∧ b = -1) then none
  else if a % b ≠ 0 ∧ (decide (a < 0) != decide (b < 0)) then some (a / b - 1)
  else some (a / b)

/-- Remainder with the sign of the divisor, where `floorDiv?` has a quotient. -/
def floorMod? (a b : Score) : Option Score :=
  (floorDiv? a b).map (fun q => a - q * b)

def digitsValue (digits : List Char) : Nat :=
  digits.foldl (fun value digit => value * 10 + (digit.toNat - '0'.toNat)) 0

/-- A score written in decimal: an optional sign, then at least one ASCII digit. A number out of
range is no score. -/
def parse? (word : String) : Option Score :=
  let (negative, digits) := match word.toList with
    | '-' :: rest => (true, rest)
    | '+' :: rest => (false, rest)
    | rest => (false, rest)
  if digits.isEmpty || !digits.all Char.isDigit then none
  else
    let value : Int := if negative then -(digitsValue digits : Int) else digitsValue digits
    if -2147483648 ≤ value ∧ value ≤ 2147483647 then some (Int32.ofInt value) else none

end Score

end ScoreScript
