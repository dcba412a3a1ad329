import ScoreScript.Fault

/-!
# Tokens and brackets

A token is one word of a script with the position of its first character. Brackets, commas, dots
and the statement separator are always words of their own.
-/

namespace ScoreScript

structure Token where
  text : String
  position : Position
deriving DecidableEq

namespace Token

def ofChar (c : Char) (position : Position) : Token :=
  ⟨String.ofList [c], position⟩

def single? (token : Token) : Option Char :=
  match token.text.toList with
  | [c] => some c
  | _ => none

def isChar (token : Token) (c : Char) : Bool :=
  token.single? == some c

@[simp]
theorem single?_ofChar (c : Char) (position : Position) : (ofChar c position).single? = some c := by
  simp [ofChar, single?]

end Token

inductive Bracket where
  | paren
  | brace
  | square
  /-- The words of one line, which no bracket encloses. -/
  | line
deriving DecidableEq

namespace Bracket

/-- The character before a group; a line starts with a space. -/
def opening : Bracket → Char
  | paren => '('
  | brace => '\x7b'
  | square => '['
  | line => ' '

/-- The character after a group; a line ends with a space. -/
def closing : Bracket → Char
  | paren => ')'
  | brace => '\x7d'
  | square => ']'
  | line => ' '

def ofOpening? (c : Char) : Option Bracket :=
  [paren, brace, square].find? (fun bracket => bracket.opening == c)

def ofClosing? (c : Char) : Option Bracket :=
  [paren, brace, square].find? (fun bracket => bracket.closing == c)

/-- Whether the group is written with bracket characters. -/
def isWritten (bracket : Bracket) : Bool :=
  bracket != line

def isBracket (c : Char) : Bool :=
  (ofOpening? c).isSome || (ofClosing? c).isSome

end Bracket

inductive Role where
  | opens (bracket : Bracket)
  | closes (bracket : Bracket)
  /-- The one-character word that ends statements, or a comma. -/
  | separates (c : Char)
  | word
deriving DecidableEq

/-- The role of a token where `separator` ends statements. A bracket stays a bracket even where
it is the separator. -/
def Token.role (separator : Char) (token : Token) : Role :=
  match token.single? with
  | none => .word
  | some c =>
      match Bracket.ofOpening? c with
      | some bracket => .opens bracket
      | none =>
          match Bracket.ofClosing? c with
          | some bracket => .closes bracket
          | none => if c = separator ∨ c = ',' then .separates c else .word

end ScoreScript
