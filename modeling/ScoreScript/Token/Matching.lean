import ScoreScript.Token

/-!
# Finding the end of a bracket or a statement

A statement is read from a token list before its words are grouped: its end is found by matching
brackets alone. Open brackets stand on a stack, innermost first, with the position they were
opened at.
-/

namespace ScoreScript.Token

/-- Brackets that are still open, innermost first. -/
abbrev OpenBrackets := List (Bracket × Position)

def OpenBrackets.pop (stack : OpenBrackets) (bracket : Bracket) (position : Position) : Except Fault OpenBrackets :=
  match stack with
  | [] => .error ⟨.strayClose bracket.closing, position⟩
  | (expected, _) :: outer =>
      if expected = bracket then .ok outer
      else .error ⟨.closeMismatch expected.closing bracket.closing, position⟩

/-- The number of tokens before the one that closes the outermost bracket of `stack` and of the
tokens. Where no bracket was ever opened, a missing parenthesis is reported at `fallback`. -/
def closeFrom (fallback : Position) : OpenBrackets → List Token → Except Fault Nat
  | [], [] => .error ⟨.unclosed Bracket.paren.closing, fallback⟩
  | (bracket, position) :: _, [] => .error ⟨.unclosed bracket.closing, position⟩
  | stack, token :: tokens =>
      match token.single? with
      | none => (· + 1) <$> closeFrom fallback stack tokens
      | some c =>
          match Bracket.ofOpening? c, Bracket.ofClosing? c with
          | some bracket, _ =>
              (· + 1) <$> closeFrom fallback ((bracket, token.position) :: stack) tokens
          | none, some bracket => do
              match ← stack.pop bracket token.position with
              | [] => return 0
              | outer => (· + 1) <$> closeFrom fallback outer tokens
          | none, none => (· + 1) <$> closeFrom fallback stack tokens

/-- The number of tokens before the one that closes the first bracket. -/
def matchingClose (tokens : List Token) : Except Fault Nat :=
  closeFrom (match tokens with
    | [] => default
    | token :: _ => token.position) [] tokens

/-- The number of tokens before the first separator outside all brackets. -/
def separatorFrom (separator : Char) : OpenBrackets → List Token → Except Fault (Option Nat)
  | [], [] => .ok none
  | (bracket, position) :: _, [] => .error ⟨.unclosed bracket.closing, position⟩
  | stack, token :: tokens =>
      match token.single? with
      | none => Option.map (· + 1) <$> separatorFrom separator stack tokens
      | some c =>
          match Bracket.ofOpening? c, Bracket.ofClosing? c with
          | some bracket, _ =>
              Option.map (· + 1) <$>
                separatorFrom separator ((bracket, token.position) :: stack) tokens
          | none, some bracket => do
              let outer ← stack.pop bracket token.position
              Option.map (· + 1) <$> separatorFrom separator outer tokens
          | none, none =>
              if c = separator ∧ stack.isEmpty then .ok (some 0)
              else Option.map (· + 1) <$> separatorFrom separator stack tokens

/-- The number of tokens in the first statement; nothing when no separator ends it. -/
def statementEnd (separator : Char) (tokens : List Token) : Except Fault (Option Nat) :=
  separatorFrom separator [] tokens

end ScoreScript.Token
