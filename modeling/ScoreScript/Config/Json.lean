import ScoreScript.Config
import ScoreScript.Json.Parser
import ScoreScript.Json.Printer

/-!
# Settings as JSON

Settings are kept as a JSON object with one member for each of them, in a fixed order. A `Format` says
how the object becomes a text and how a text is read. Reading takes missing members from the defaults
and passes over unknown ones, but a known member must occur at most once and be a string. An array is
read as the settings in their order.
-/

namespace ScoreScript.Config

inductive Setting where
  | nameSpace
  | entry
  | registerObjective
  | separator
  | anonymousPrefix
deriving DecidableEq

namespace Setting

def key : Setting → String
  | nameSpace => "namespace"
  | entry => "entry"
  | registerObjective => "register_objective"
  | separator => "statement_separator"
  | anonymousPrefix => "anonymous_prefix"

def all : List Setting :=
  [nameSpace, entry, registerObjective, separator, anonymousPrefix]

def ofKey? (name : String) : Option Setting :=
  all.find? (fun setting => setting.key == name)

end Setting

def get (config : Config) : Setting → String
  | .nameSpace => config.nameSpace
  | .entry => config.entry
  | .registerObjective => config.registerObjective
  | .separator => config.separator.toString
  | .anonymousPrefix => config.anonymousPrefix

/-- The settings with one of them changed. The separator is a text of one character. -/
def put? (config : Config) (setting : Setting) (value : Json) : Option Config :=
  match setting, value with
  | .nameSpace, .text content => some { config with nameSpace := content }
  | .entry, .text content => some { config with entry := content }
  | .registerObjective, .text content => some { config with registerObjective := content }
  | .separator, .text content =>
      match content.toList with
      | [c] => some { config with separator := c }
      | _ => none
  | .anonymousPrefix, .text content => some { config with anonymousPrefix := content }
  | _, _ => none

/-- Take the members of an object over into settings; `seen` are those already taken. -/
def ofMembers? (config : Config) (seen : List Setting) :
    List (Option String × Json) → Option Config
  | [] => some config
  | (none, _) :: _ => none
  | (some name, value) :: members =>
      match Setting.ofKey? name with
      | none => ofMembers? config seen members
      | some setting =>
          if seen.contains setting then none
          else
            match config.put? setting value with
            | some changed => ofMembers? changed (setting :: seen) members
            | none => none

def ofItems? (config : Config) : List Setting → List Json → Option Config
  | _, [] => some config
  | [], _ :: _ => none
  | setting :: settings, value :: values =>
      match config.put? setting value with
      | some changed => ofItems? changed settings values
      | none => none

def ofJson? : Json → Option Config
  | .object members => ofMembers? {} [] members
  | .array items => ofItems? {} Setting.all items
  | .null | .bool _ | .number _ | .text _ | .garbled => none

/-- The settings as the members of an object, each a key and a text. -/
def members (config : Config) : List (String × String) :=
  Setting.all.map (fun setting => (setting.key, config.get setting))

def toJson (config : Config) : Json :=
  .object (config.members.map Json.ofTexts)

/-- How settings are written to a text and read from one. -/
structure Format where
  /-- The text of an object with these members. -/
  write : List (String × String) → String
  read? : String → Option Config

namespace Format

variable (format : Format)

def save (config : Config) : Except ConfigFault String := do
  config.validate
  return format.write config.members

/-- The settings kept in a file, given what comes of reading it. -/
def load (content : Except FileFault String) : Except ConfigFault Config :=
  match content with
  | .error fault => .error (.file fault)
  | .ok text =>
      match format.read? text with
      | none => .error .unreadable
      | some config => do
          config.validate
          return config

/-- Like `load`, but without a file the defaults are used. -/
def loadOrDefault (content : Except FileFault String) : Except ConfigFault Config :=
  match content with
  | .error fault => if fault.isAbsence then .ok {} else format.load content
  | .ok _ => format.load content

/-- The format of the command line. -/
def json : Format where
  write members := (Json.object (members.map Json.ofTexts)).render
  read? text := (Json.parse? text).bind ofJson?

end Format

def save (config : Config) : Except ConfigFault String :=
  Format.json.save config

def load (content : Except FileFault String) : Except ConfigFault Config :=
  Format.json.load content

def loadOrDefault (content : Except FileFault String) : Except ConfigFault Config :=
  Format.json.loadOrDefault content

end ScoreScript.Config
