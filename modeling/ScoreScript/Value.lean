import ScoreScript.Score
import ScoreScript.Text.Escaped

/-!
# Values

What a variable can hold while a script is compiled. A value is either known at once, and then
carried along as it is, or it lives in a register of the scoreboard and is known only when the
commands run.
-/

namespace ScoreScript

/-- A cell of the scoreboard: a score holder within an objective. -/
structure Register where
  holder : String
  objective : String
deriving DecidableEq

/-- Commands name a register by its holder and its objective. -/
def Register.render (register : Register) : String :=
  register.holder ++ " " ++ register.objective

inductive ValueType where
  | int
  | bool
  | string
  | objective
deriving DecidableEq

namespace ValueType

def name : ValueType → String
  | int => "int"
  | bool => "bool"
  | string => "string"
  | objective => "objective"

def all : List ValueType :=
  [int, bool, string, objective]

def ofName? (word : String) : Option ValueType :=
  all.find? (fun type => type.name == word)

@[simp]
theorem ofName?_name (type : ValueType) : ofName? type.name = some type := by
  cases type <;> decide

theorem name_injective {a b : ValueType} (same : a.name = b.name) : a = b := by
  have := congrArg ofName? same
  simpa using this

end ValueType

inductive Access where
  | hidden
  | shared
deriving DecidableEq

namespace Access

def word : Access → String
  | hidden => "private"
  | shared => "public"

def ofWord? (text : String) : Option Access :=
  [hidden, shared].find? (fun access => access.word == text)

end Access

/-- How long the value of a variable is fixed, and who asked for it. -/
inductive Usage where
  | ordinary
  | static
  | constant
  | parameter
  | result
deriving DecidableEq

namespace Usage

def word : Usage → String
  | ordinary => "default"
  | static => "static"
  | constant => "const"
  | parameter => "parameter"
  | result => "return"

/-- The usage modifier that a word writes. The other usages are not for scripts to write. -/
def ofWord? (text : String) : Option Usage :=
  [static, constant].find? (fun usage => usage.word == text)

/-- Whether a type may refuse the usage. Usages that only the compiler gives are never refused. -/
def isChecked : Usage → Bool
  | parameter | result => false
  | ordinary | static | constant => true

end Usage

namespace ValueType

def accesses (_ : ValueType) : List Access :=
  [.hidden, .shared]

/-- The usages that a type admits among those that are checked. Text is only known while
compiling, so a static text would be no different from an ordinary one. -/
def usages : ValueType → List Usage
  | string => [.ordinary, .constant]
  | int | bool | objective => [.ordinary, .static, .constant]

def isConstructible : ValueType → Bool
  | objective => true
  | int | bool | string => false

end ValueType

inductive Value where
  | unset
  /-- A number known while compiling; a truth value is 0 or 1. -/
  | int (score : Score)
  | text (text : String)
  /-- A score known only when the commands run. -/
  | register (register : Register)
  /-- A reference to an objective of the scoreboard. -/
  | objective (id criterion : String)
deriving DecidableEq

namespace Value

def isConstant : Value → Bool
  | int _ | text _ => true
  | unset | register _ | objective .. => false

def isResident : Value → Bool
  | register _ => true
  | unset | int _ | text _ | objective .. => false

def register? : Value → Option Register
  | register r => some r
  | unset | int _ | text _ | objective .. => none

/-- A value as reports about the compiler itself show it. -/
def describe : Value → String
  | unset => "Unset"
  | int score => "Int(" ++ score.render ++ ")"
  | text content => "Text(" ++ Text.escaped content ++ ")"
  | register r =>
      "Register(Register \x7b holder: " ++ Text.escaped r.holder ++ ", objective: " ++
        Text.escaped r.objective ++ " \x7d)"
  | objective id criterion =>
      "Objective \x7b id: " ++ Text.escaped id ++ ", criterion: " ++ Text.escaped criterion ++
        " \x7d"

end Value

end ScoreScript
