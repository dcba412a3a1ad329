/-!
# Runs of characters

A property of characters that no rule gives is a table of runs: how many code points in a row lack
the property, how many after them have it, and so on in turn.
-/

namespace ScoreScript.Text

/-- Whether the code point `n` places after the start of a table has the property. What is behind
the last run lacks it. -/
def inRuns (n : Nat) : List Nat → Bool
  | outside :: inside :: runs =>
      outside ≤ n && (n < outside + inside || inRuns (n - outside - inside) runs)
  | _ => false

end ScoreScript.Text
