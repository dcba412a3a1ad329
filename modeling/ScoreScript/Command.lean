import ScoreScript.Json.Text
import ScoreScript.Operator
import ScoreScript.Value

/-!
# Commands

The commands that a script is compiled to. A command is kept as what it does; only `render` knows
how it is written.
-/

namespace ScoreScript

inductive ScoreRange where
  | exactly (score : Score)
  | atLeast (low : Score)
  | atMost (high : Score)
deriving DecidableEq

def ScoreRange.render : ScoreRange → String
  | exactly score => score.render
  | atLeast low => low.render ++ ".."
  | atMost high => ".." ++ high.render

inductive Comparison where
  | greater
  | greaterEqual
  | equal
  | less
  | lessEqual
deriving DecidableEq

def Comparison.symbol : Comparison → String
  | greater => ">"
  | greaterEqual => ">="
  | equal => "="
  | less => "<"
  | lessEqual => "<="

inductive Condition where
  | inRange (register : Register) (range : ScoreRange)
  | compare (left : Register) (comparison : Comparison) (right : Register)
deriving DecidableEq

def Condition.render : Condition → String
  | inRange register range => "score " ++ register.render ++ " matches " ++ range.render
  | compare left comparison right =>
      "score " ++ left.render ++ " " ++ comparison.symbol ++ " " ++ right.render

inductive Command where
  | set (target : Register) (score : Score)
  | add (target : Register) (amount : Score)
  | remove (target : Register) (amount : Score)
  | copy (target source : Register)
  /-- Combine a register with another, in place. -/
  | operate (target : Register) (op : Operator) (source : Register)
  | reset (target : Register)
  /-- Run a command if the condition holds, or unless it does. -/
  | guarded (holds : Bool) (condition : Condition) (command : Command)
  | call (nameSpace path : String)
  | addObjective (id criterion : String)
  | removeObjective (id : String)
  | showObjective (id name : String)
  | verbatim (line : String)
deriving DecidableEq

/-- The line that shows an objective under a name, which `encode` writes as a text component. -/
def Command.showLine (encode : String → String) (id name : String) : String :=
  "scoreboard objectives modify " ++ id ++ " displayname " ++ encode name

def Command.render : Command → String
  | set target score => "scoreboard players set " ++ target.render ++ " " ++ score.render
  | add target amount => "scoreboard players add " ++ target.render ++ " " ++ amount.render
  | remove target amount => "scoreboard players remove " ++ target.render ++ " " ++ amount.render
  | copy target source =>
      "scoreboard players operation " ++ target.render ++ " = " ++ source.render
  | operate target op source =>
      "scoreboard players operation " ++ target.render ++ " " ++ op.symbol ++ "= " ++ source.render
  | reset target => "scoreboard players reset " ++ target.render
  | guarded true condition command => "execute if " ++ condition.render ++ " run " ++ command.render
  | guarded false condition command =>
      "execute unless " ++ condition.render ++ " run " ++ command.render
  | call nameSpace path => "function " ++ nameSpace ++ ":" ++ path
  | addObjective id criterion => "scoreboard objectives add " ++ id ++ " " ++ criterion
  | removeObjective id => "scoreboard objectives remove " ++ id
  | showObjective id name => showLine Json.encodeText id name
  | verbatim line => line

inductive Phase where
  | setup
  /-- Whenever the function it was written for runs. -/
  | activation
  | tick
  /-- Once, at the end, in reverse order of the setup. -/
  | teardown
deriving DecidableEq

/-- Commands that a scope contributes to the output. -/
structure Emission where
  setup : List Command := []
  activation : List Command := []
  teardown : List Command := []
deriving DecidableEq

namespace Emission

/-- The commands for a phase; nothing is contributed to every step. -/
def commands (emission : Emission) : Phase → List Command
  | .setup => emission.setup
  | .activation => emission.activation
  | .tick => []
  | .teardown => emission.teardown

def isEmpty (emission : Emission) : Bool :=
  emission.setup.isEmpty && emission.activation.isEmpty && emission.teardown.isEmpty

def ofObjective (id criterion : String) : Emission :=
  { setup := [.addObjective id criterion], teardown := [.removeObjective id] }

end Emission

end ScoreScript
