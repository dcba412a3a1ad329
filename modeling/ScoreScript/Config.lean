import ScoreScript.Files
import ScoreScript.Text.Alphanumeric
import ScoreScript.Text.Blank
import ScoreScript.Token

/-!
# Settings

The settings of one compilation, and the rules that make them usable: what becomes part of a
function name must be a path segment, the register objective must be one word that the target
accepts, the separator must not occur in any other word, and generated names must be words.
-/

namespace ScoreScript

structure Config where
  nameSpace : String := "mcs"
  entry : String := "main"
  registerObjective : String := "mcs.vars"
  separator : Char := ';'
  /-- The start of every generated name, which scripts must not declare. -/
  anonymousPrefix : String := "anon_"
deriving DecidableEq

inductive ConfigFault where
  | file (fault : FileFault)
  | unreadable
  | badNameSpace (name : String)
  | badEntry (name : String)
  | badRegisterObjective (name : String)
  | badSeparator (separator : Char)
  | badPrefix (name : String)
deriving DecidableEq

def ConfigFault.message : ConfigFault → String
  | file fault => "I/O error: " ++ fault.message
  | unreadable => "JSON error: not a settings document"
  | badNameSpace name => "Invalid config: bad namespace '" ++ name ++ "'"
  | badEntry name => "Invalid config: bad entry function '" ++ name ++ "'"
  | badRegisterObjective name => "Invalid config: bad register objective '" ++ name ++ "'"
  | badSeparator separator =>
      "Invalid config: bad statement separator '" ++ separator.toString ++ "'"
  | badPrefix name => "Invalid config: bad anonymous prefix '" ++ name ++ "'"

/-- The functions that every package may have besides those of its units. -/
def phaseFunctions : List String :=
  ["load", "tick", "unload"]

namespace Config

def isSegmentChar (c : Char) : Bool :=
  c.isLower || c.isDigit || c == '_' || c == '-' || c == '.'

/-- A name that can stand between the slashes of a function path. -/
def isPathSegment (name : String) : Bool :=
  !name.toList.isEmpty && name.toList.all isSegmentChar

/-- An objective name that commands can hold as one word. -/
def isRegisterObjective (name : String) : Bool :=
  !name.toList.isEmpty && name.utf8ByteSize ≤ 16 && !name.toList.any Text.isBlank

/-- A character that is part of no word, literal or bracket. -/
def isSeparator (c : Char) : Bool :=
  !(Operator.all.any (fun op => op.symbol.toList.contains c) || Text.isAlphanumeric c ||
    Text.isBlank c || Bracket.isBracket c || c == ',' || c == '"' || c == '_')

/-- A start of generated names that keeps them words. -/
def isAnonymousPrefix (name : String) : Bool :=
  !name.toList.isEmpty && name.toList.all (fun c => c.isAlphanum || c == '_')

def validate (config : Config) : Except ConfigFault Unit := do
  if !isPathSegment config.nameSpace then throw (.badNameSpace config.nameSpace)
  if !isPathSegment config.entry || phaseFunctions.contains config.entry then
    throw (.badEntry config.entry)
  if !isRegisterObjective config.registerObjective then
    throw (.badRegisterObjective config.registerObjective)
  if !isSeparator config.separator then throw (.badSeparator config.separator)
  if !isAnonymousPrefix config.anonymousPrefix then throw (.badPrefix config.anonymousPrefix)

def Valid (config : Config) : Prop :=
  config.validate = .ok ()

instance (config : Config) : Decidable config.Valid :=
  match outcome : config.validate with
  | .ok () => isTrue outcome
  | .error _ => isFalse (fun valid => by simp [Valid, outcome] at valid)

end Config

end ScoreScript
