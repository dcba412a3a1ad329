import ScoreScript.Compile.Objective
import ScoreScript.Statement.Reader

/-!
# Engines

Expressions hold expressions, statements hold statements, and a truth value computed from registers
is itself compiled from a small script. An engine is what the parts of the compiler use for what
lies one level deeper: it evaluates a sequence of trees, it writes a statement, and it compiles a
script that the compiler makes up. An engine of some depth is made from the engine one level below,
down to the one that refuses every tree.
-/

namespace ScoreScript

structure Engine where
  /-- Evaluate a sequence of trees; assigning a property gives no value. -/
  evaluate : List Tree → Position → Compile (Option VarId)
  /-- Compile a statement into the current scope. -/
  write : Tree → Compile Unit
  /-- Compile a script that the compiler made up as a unit of its own, all of which reports one
  position; the result is its path. -/
  generate : String → Position → Compile String

namespace Engine

/-- The engine of depth zero, which refuses every tree. A script that the compiler makes up is
nested on its own account. -/
def exhausted (generate : String → Position → Compile String) : Engine where
  evaluate _ position := throw ⟨.nestingExhausted, position⟩
  write tree := throw ⟨.nestingExhausted, tree.position⟩
  generate

/-- Where a sequence of trees starts, or else `fallback`. -/
def startOf (items : List Tree) (fallback : Position) : Position :=
  match items with
  | [] => fallback
  | first :: _ => first.position

def evaluateItems (engine : Engine) (items : List Tree) (position : Position) : Compile VarId := do
  let position := startOf items position
  match ← engine.evaluate items position with
  | some value => return value
  | none => throw ⟨.noValue, position⟩

def evaluateTree (engine : Engine) (tree : Tree) : Compile VarId := do
  match tree with
  | .leaf token => engine.evaluateItems [tree] token.position
  | .group children .line .space position => engine.evaluateItems children position
  | .group children .paren .space position => engine.evaluateItems children position
  | .group _ .paren .comma position => throw ⟨.commaInExpression, position⟩
  | .group _ bracket _ position => throw ⟨.bracketInExpression bracket.opening, position⟩

/-- Evaluate trees one after the other, each of which must give a value. -/
def evaluateAll (engine : Engine) : List Tree → Compile (List VarId)
  | [] => return []
  | tree :: trees => do
      let value ← engine.evaluateTree tree
      return value :: (← engine.evaluateAll trees)

def evaluateArguments (engine : Engine) (tree : Tree) : Compile (List VarId) := do
  match tree with
  | .group children .paren .comma _ => engine.evaluateAll children
  | .group [] .paren .space _ => return []
  | .group children .paren .space position => return [← engine.evaluateItems children position]
  | .group _ .paren (.statement separator) position =>
      throw ⟨.separatorInArguments separator, position⟩
  | _ => throw ⟨.expectedArguments tree.shown, tree.position⟩

def writeAll (engine : Engine) : List Tree → Compile Unit
  | [] => return
  | tree :: trees => do
      engine.write tree
      engine.writeAll trees

/-- Read the statements of a token list and compile them into the current scope. -/
def compileTokens (engine : Engine) (tokens : List Token) : Compile Unit := do
  let statements ← (← get).layout.readStatements tokens
  engine.writeAll statements

/-- Compile a token list as a unit of its own inside the current scope; the result is its path.
Nothing calls it yet. -/
def compileUnit (engine : Engine) (tokens : List Token) (position : Position) :
    Compile String := do
  let (path, scope) ← Compile.openUnit position
  Compile.inScope scope (engine.compileTokens tokens)
  return path

/-- The tokens of a body: what stands between its braces, or all of a body without braces. -/
def bodyTokens : Tree → List Token
  | .group children .brace divider position => Tree.innerTokensOnto divider position children []
  | tree => tree.tokensOnto []

/-- Compile a body as a unit of its own; the result is its path. -/
def compileBlock (engine : Engine) (body : Tree) : Compile String :=
  engine.compileUnit (bodyTokens body) body.position

/-- Compile a script as a unit of its own with `engine` for its statements. All of it reports
`position`. -/
def compileScript (engine : Engine) (script : String) (position : Position) :
    Compile String := do
  let tokens ← (← get).layout.tokenizeAt script position
  engine.compileUnit tokens position

def callBlock (engine : Engine) (body : Tree) : Compile Unit := do
  Compile.emitCall (← engine.compileBlock body)

end Engine

end ScoreScript
