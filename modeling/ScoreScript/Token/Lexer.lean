import ScoreScript.Token
import ScoreScript.Text.Blank

/-!
# Reading words

A script is read from left to right, one character at a time. Between two words stand blanks and
comments; a comment starts with `//` where a word could start and runs to the end of the line. A
string literal keeps its quotes and escapes as they are written, and must end on its line.
-/

namespace ScoreScript.Token

/-- What the characters just read belong to. The characters of an unfinished word are kept last
first. -/
inductive Reading where
  | between
  | comment
  | word (start : Position) (read : List Char)
  /-- A string literal; `escaped` after a backslash that is not itself escaped. -/
  | literal (start : Position) (read : List Char) (escaped : Bool)

def isPunctuation (separator c : Char) : Bool :=
  c == separator || c == ',' || c == '.' || Bracket.isBracket c

def ofReversed (read : List Char) (start : Position) : Token :=
  ⟨String.ofList read.reverse, start⟩

/-- The words of a text, given what the characters before it belong to and where it stands. -/
def scan (separator : Char) : Reading → Position → List Char → Except Fault (List Token)
  | .between, _, [] => .ok []
  | .comment, _, [] => .ok []
  | .word start read, _, [] => .ok [ofReversed read start]
  | .literal start _ _, _, [] => .error ⟨.unterminatedLiteral, start⟩
  | .comment, position, c :: rest =>
      scan separator (if c = '\n' then .between else .comment) (position.advance c) rest
  | .literal start read escaped, position, c :: rest =>
      if escaped then scan separator (.literal start (c :: read) false) (position.advance c) rest
      else if c = '\\' then
        scan separator (.literal start (c :: read) true) (position.advance c) rest
      else if c = '"' then do
        let words ← scan separator .between (position.advance c) rest
        return ofReversed (c :: read) start :: words
      else if c = '\n' then .error ⟨.unterminatedLiteral, start⟩
      else scan separator (.literal start (c :: read) false) (position.advance c) rest
  | .word start read, position, c :: rest =>
      if Text.isBlank c then do
        let words ← scan separator .between (position.advance c) rest
        return ofReversed read start :: words
      else if c = '"' then do
        let words ← scan separator (.literal position [c] false) (position.advance c) rest
        return ofReversed read start :: words
      else if isPunctuation separator c then do
        let words ← scan separator .between (position.advance c) rest
        return ofReversed read start :: ofChar c position :: words
      else scan separator (.word start (c :: read)) (position.advance c) rest
  | .between, position, c :: rest =>
      if Text.isBlank c then scan separator .between (position.advance c) rest
      else if c = '/' ∧ rest.head? = some '/' then
        scan separator .comment (position.advance c) rest
      else if c = '"' then
        scan separator (.literal position [c] false) (position.advance c) rest
      else if isPunctuation separator c then do
        let words ← scan separator .between (position.advance c) rest
        return ofChar c position :: words
      else scan separator (.word position [c]) (position.advance c) rest

theorem scan_between_nil (separator : Char) (position : Position) : scan separator .between position [] = .ok [] := by
  rw [scan]

def tokenize (source : Nat) (separator : Char) (text : String) : Except Fault (List Token) :=
  scan separator .between (Position.start source) text.toList

/-- The words of a text that the compiler made up; every word reports the position of what the
text stands for. -/
def tokenizeAt (source : Nat) (separator : Char) (text : String) (position : Position) :
    Except Fault (List Token) := do
  let tokens ← tokenize source separator text
  return tokens.map (fun token => { token with position })

end ScoreScript.Token
