/-!
# Base 62

Generated names count in base 62, with the digits `0` to `9`, `a` to `z` and `A` to `Z`.
-/

namespace ScoreScript.Base62

def alphabet : List Char :=
  "0123456789abcdefghijklmnopqrstuvwxyzABCDEFGHIJKLMNOPQRSTUVWXYZ".toList

def digit (value : Nat) : Char :=
  alphabet.getD value '0'

/-- The digits of `n` put before `suffix`, for any bound on their number. A number has fewer
digits than its own value plus one. -/
def digitsFrom : Nat → Nat → List Char → List Char
  | 0, _, suffix => suffix
  | bound + 1, n, suffix =>
      let digits := digit (n % 62) :: suffix
      if n / 62 = 0 then digits else digitsFrom bound (n / 62) digits

/-- The digits of a number, most significant first; zero has one digit. -/
def digits (n : Nat) : List Char :=
  digitsFrom (n + 1) n []

def render (n : Nat) : String :=
  String.ofList (digits n)

end ScoreScript.Base62
