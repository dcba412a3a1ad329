import ScoreScript.Token.Matching
import ScoreScript.Tree.Grouping

/-!
# Reading statements

Statements are read one after the other from a token list. An `if` reads its own tokens, because
it can span several separators; every other statement runs to the next separator outside all
brackets. A reader that fails stays where the failing read left it.
-/

namespace ScoreScript

structure Reader where
  layout : Layout
  rest : List Token
  /-- Where a missing token is reported: at the last one there was. -/
  finish : Position

namespace Reader

def start (layout : Layout) (tokens : List Token) : Reader :=
  { layout, rest := tokens
    finish := match tokens.getLast? with
      | some token => token.position
      | none => Position.start layout.source }

def peek? (reader : Reader) : Option Token :=
  reader.rest.head?

def atEnd (reader : Reader) : Bool :=
  reader.rest.isEmpty

def position (reader : Reader) : Position :=
  match reader.rest with
  | token :: _ => token.position
  | [] => reader.finish

def peekIs (reader : Reader) (text : String) : Bool :=
  match reader.rest with
  | token :: _ => token.text == text
  | [] => false

/-- Whether the next token is the one-character word `c`. -/
def peekIsChar (reader : Reader) (c : Char) : Bool :=
  match reader.rest with
  | token :: _ => token.isChar c
  | [] => false

/-- A read that moves the reader, also when it fails. -/
abbrev Read := ExceptT Fault (StateM Reader)

def advance : Read (Option Token) := do
  let reader ← get
  match reader.rest with
  | [] => return none
  | token :: rest =>
      set { reader with rest }
      return some token

def skipSeparators : Read Unit :=
  modify fun reader =>
    let separator := reader.layout.separator
    { reader with rest := reader.rest.dropWhile (fun token => token.isChar separator) }

def readGroup : Read Tree := do
  let reader ← get
  let last ← Token.matchingClose reader.rest
  let tree ← reader.layout.block (reader.rest.take (last + 1))
  set { reader with rest := reader.rest.drop (last + 1) }
  return tree

/-- The tokens before the next separator outside all brackets, which is passed over. The end of
the tokens ends a statement as well. -/
def readUntilSeparator : Read (List Token) := do
  let reader ← get
  match ← Token.statementEnd reader.layout.separator reader.rest with
  | some stop =>
      set { reader with rest := reader.rest.drop (stop + 1) }
      return reader.rest.take stop
  | none =>
      set { reader with rest := [] }
      return reader.rest

def readLine : Read Tree := do
  let tokens ← readUntilSeparator
  let reader ← get
  reader.layout.line tokens

/-- The words that start a statement of a shape of its own. -/
def isKeyword (word : String) : Bool :=
  word == "if"

/-- Whether the next token starts a statement of a shape of its own. -/
def peekKeyword (reader : Reader) : Bool :=
  match reader.rest with
  | token :: _ => isKeyword token.text
  | [] => false

/-- A body of an `if`, given how to read an `if`. A body without braces is the one statement of a
brace group. -/
def readBody (readIf : Read Tree) (after : String) : Read Tree := do
  let reader ← get
  if reader.atEnd || reader.peekIsChar reader.layout.separator then
    throw ⟨.expectedBody after, reader.position⟩
  if reader.peekIsChar Bracket.brace.opening then readGroup
  else
    let statement ← if reader.peekKeyword then readIf else readLine
    return Tree.ofChildren [statement] .brace (.statement reader.layout.separator) reader.position

/-- An `if` statement: a line of the keyword, the condition and the body, and then of `else` and
the other body where there is one. An `if` inside a body stands at least one token later, so a
bound on the tokens bounds the nesting. -/
def readIf : Nat → Read Tree
  | 0 => do throw ⟨.nestingExhausted, (← get).position⟩
  | depth + 1 => do
      match ← advance with
      | some keyword =>
          if keyword.text != "if" then throw ⟨.expectedIf, (← get).position⟩
          if !(← get).peekIsChar Bracket.paren.opening then
            throw ⟨.expectedCondition, (← get).position⟩
          let condition ← readGroup
          let body ← readBody (readIf depth) "if"
          match (← get).peek? with
          | some token =>
              if token.text == "else" then
                let _ ← advance
                let other ← readBody (readIf depth) "else"
                return Tree.line [.leaf keyword, condition, body, .leaf token, other]
                  keyword.position
              else return Tree.line [.leaf keyword, condition, body] keyword.position
          | none => return Tree.line [.leaf keyword, condition, body] keyword.position
      | none => throw ⟨.expectedIf, (← get).position⟩

def readIfStatement : Read Tree := do
  readIf ((← get).rest.length + 1)

def readStatement : Read Tree := do
  if (← get).peekKeyword then readIfStatement else readLine

/-- Every statement up to the end. Each of them takes at least one token, so a bound on the tokens
bounds their number. -/
def readStatementsUpTo : Nat → Read (List Tree)
  | 0 => do throw ⟨.nestingExhausted, (← get).position⟩
  | bound + 1 => do
      skipSeparators
      if (← get).atEnd then return []
      let statement ← readStatement
      let statements ← readStatementsUpTo bound
      return statement :: statements

def readStatements : Read (List Tree) := do
  readStatementsUpTo ((← get).rest.length + 1)

end Reader

namespace Layout

def readStatements (layout : Layout) (tokens : List Token) : Except Fault (List Tree) :=
  (Reader.readStatements.run.run (Reader.start layout tokens)).1

def parseStatements (layout : Layout) (text : String) : Except Fault (List Tree) := do
  layout.readStatements (← layout.tokenize text)

end Layout

end ScoreScript
