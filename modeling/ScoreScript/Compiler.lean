import ScoreScript.Compile.Statement
import ScoreScript.Package

/-!
# The compiler

A script is cut into words, read into statements, compiled into units and entries, and written out
as a package. The engine of a given depth compiles what is nested no deeper; a text cannot nest
deeper than a bound on its length, so an engine for a text is always deep enough. The scripts that
the compiler makes up are texts of their own: each gets a depth from its own length. Such a script
holds names of variables, and where the settings let names look like operations it makes up further
scripts in turn; these go on for a bounded number of generations.
-/

namespace ScoreScript

namespace Engine

/-- The depth that a text of a given length can need. Every level of nesting takes at least one
character, and a body without braces takes a few levels more. -/
def depthFor (length : Nat) : Nat :=
  4 * length + 64

/-- The engine that compiles what is nested at most so deep, given how the scripts that the
compiler makes up are compiled. -/
def ofDepth (generate : String → Position → Compile String) : Nat → Engine
  | 0 => exhausted generate
  | depth + 1 =>
      { evaluate := fun items position => (ofDepth generate depth).evaluateSequence items position
        write := fun tree => (ofDepth generate depth).writeStatement tree
        generate }

/-- Compile a script that the compiler made up, where those that it makes up in turn go at most so
many generations further. -/
def generateWithin : Nat → String → Position → Compile String
  | 0, _, position => throw ⟨.nestingExhausted, position⟩
  | generations + 1, script, position =>
      (ofDepth (generateWithin generations) (depthFor script.length)).compileScript script position

/-- How many generations of scripts the compiler makes up. Where names are plain words one is enough,
since its script tests and assigns variables and holds no operation on truth values. Other names
can make up scripts without end, and are stopped here. -/
def generationLimit : Nat :=
  1024

def forText (text : String) : Engine :=
  ofDepth (generateWithin generationLimit) (depthFor text.length)

def compileEntry (engine : Engine) (text : String) : Compile Unit := do
  let tokens ← (← get).layout.tokenize text
  let scope ← Compile.openEntry
  Compile.inScope scope (engine.compileTokens tokens)

end Engine

def compileSource (source : Nat) (text : String) (config : Config) : Except Fault Package := do
  let (outcome, state) := ((Engine.forText text).compileEntry text).runFrom
    (State.start config source)
  outcome
  state.flush

end ScoreScript
