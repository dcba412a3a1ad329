/-!
# Command line arguments

A command line names one command and gives it one input. Options stand before or after the
command's name; `--` ends them. An option that takes a value has it in the same argument after
`=`, or in the next one, which then must not look like an option itself. Apart from `-v`, no
option may be given twice in the same place.
-/

namespace ScoreScript.CommandLine

inductive Verb where
  | build
  | tree
deriving DecidableEq

def Verb.ofName? : String → Option Verb
  | "build" => some build
  | "tree" => some tree
  | _ => none

inductive Flag where
  | config
  | verbose
  | help
  | version
  | out
  | nameSpace
  | json
deriving DecidableEq

namespace Flag

def ofName? : String → Option Flag
  | "config" => some config
  | "verbose" => some verbose
  | "help" => some help
  | "version" => some version
  | "out" => some out
  | "namespace" => some nameSpace
  | "json" => some json
  | _ => none

def ofLetter? : Char → Option Flag
  | 'v' => some verbose
  | 'h' => some help
  | 'V' => some version
  | _ => none

/-- Where an option is allowed: before the command's name, or after it. -/
def isAllowed (flag : Flag) (verb : Option Verb) : Bool :=
  match flag with
  | config | verbose | help => true
  | version => verb.isNone
  | out | nameSpace => verb == some .build
  | json => verb == some .tree

def takesValue : Flag → Bool
  | config | out | nameSpace => true
  | verbose | help | version | json => false

end Flag

inductive Action where
  | build (input out : String) (nameSpace : Option String)
  | tree (input : String) (json : Bool)
deriving DecidableEq

structure Invocation where
  config : Option String
  action : Action
deriving DecidableEq

inductive Stop where
  | help
  | version
  | misuse
deriving DecidableEq

structure Arguments where
  verb : Option Verb := none
  /-- The options since the command's name, or since the start. -/
  given : List Flag := []
  config : Option String := none
  input : Option String := none
  out : String := "out"
  nameSpace : Option String := none
  json : Bool := false

namespace Arguments

/-- Note that an option is given. Only `-v` may be repeated. -/
def note (arguments : Arguments) (flag : Flag) : Except Stop Arguments :=
  if flag != .verbose && arguments.given.contains flag then .error .misuse
  else .ok { arguments with given := flag :: arguments.given }

def setFlag (arguments : Arguments) (flag : Flag) : Except Stop Arguments :=
  match flag with
  | .help => .error .help
  | .version => .error .version
  | .json => { arguments with json := true }.note .json
  | .config | .verbose | .out | .nameSpace => arguments.note flag

/-- Take in an option with its value. A path must not be empty. -/
def setValue (arguments : Arguments) (flag : Flag) (value : String) : Except Stop Arguments :=
  match flag with
  | .config =>
      if value.isEmpty then .error .misuse
      else { arguments with config := some value }.note .config
  | .out =>
      if value.isEmpty then .error .misuse
      else { arguments with out := value }.note .out
  | .nameSpace => { arguments with nameSpace := some value }.note .nameSpace
  | .verbose | .help | .version | .json => .error .misuse

def setLetters (arguments : Arguments) : List Char → Except Stop Arguments
  | [] => .ok arguments
  | letter :: letters =>
      match Flag.ofLetter? letter with
      | some flag =>
          if flag.isAllowed arguments.verb then do
            let next ← arguments.setFlag flag
            next.setLetters letters
          else .error .misuse
      | none => .error .misuse

/-- Take in an input. There is one, and only after the command's name. -/
def setInput (arguments : Arguments) (value : String) : Except Stop Arguments :=
  if arguments.verb.isNone || arguments.input.isSome || value.isEmpty then .error .misuse
  else .ok { arguments with input := some value }

def start (arguments : Arguments) (verb : Verb) : Arguments :=
  { arguments with verb := some verb, given := [] }

def setInputs (arguments : Arguments) (values : List String) : Except Stop Arguments :=
  values.foldlM setInput arguments

end Arguments

inductive Form where
  | endOfOptions
  /-- An option by its name, perhaps with a value. -/
  | named (name : String) (value : Option String)
  | letters (letters : List Char)
  | plain (value : String)
deriving DecidableEq

def Form.of (argument : String) : Form :=
  match argument.toList with
  | '-' :: '-' :: [] => endOfOptions
  | '-' :: '-' :: rest =>
      match rest.dropWhile (· != '=') with
      | _ :: value => named (String.ofList (rest.takeWhile (· != '='))) (some (String.ofList value))
      | [] => named (String.ofList rest) none
  | '-' :: c :: rest => letters (c :: rest)
  | _ => plain argument

def helpTopic (topics : List String) : Stop :=
  match topics with
  | [] => .help
  | [topic] => if topic = "help" ∨ (Verb.ofName? topic).isSome then .help else .misuse
  | _ :: _ :: _ => .misuse

namespace Arguments

def readAll (arguments : Arguments) : List String → Except Stop Arguments
  | [] => .ok arguments
  | argument :: rest =>
      match Form.of argument with
      | .endOfOptions => arguments.setInputs rest
      | .letters letters => do
          let next ← arguments.setLetters letters
          next.readAll rest
      | .plain value =>
          if arguments.verb.isNone then
            if value = "help" then .error (helpTopic rest)
            else
              match Verb.ofName? value with
              | some verb => (arguments.start verb).readAll rest
              | none => .error .misuse
          else do
            let next ← arguments.setInput value
            next.readAll rest
      | .named name value =>
          match Flag.ofName? name, value with
          | none, _ => .error .misuse
          | some flag, some value =>
              if flag.isAllowed arguments.verb then do
                let next ← arguments.setValue flag value
                next.readAll rest
              else .error .misuse
          | some flag, none =>
              if !flag.isAllowed arguments.verb then .error .misuse
              else if !flag.takesValue then do
                let next ← arguments.setFlag flag
                next.readAll rest
              else
                match rest with
                | [] => .error .misuse
                | value :: rest =>
                    match Form.of value with
                    | .plain _ => do
                        let next ← arguments.setValue flag value
                        next.readAll rest
                    | .endOfOptions | .named .. | .letters _ => .error .misuse

def finish (arguments : Arguments) : Except Stop Invocation :=
  match arguments.verb, arguments.input with
  | some .build, some input =>
      .ok ⟨arguments.config, .build input arguments.out arguments.nameSpace⟩
  | some .tree, some input => .ok ⟨arguments.config, .tree input arguments.json⟩
  | none, _ => .error .misuse
  | some _, none => .error .misuse

end Arguments

def Invocation.ofArguments (values : List String) : Except Stop Invocation := do
  let arguments ← ({} : Arguments).readAll values
  arguments.finish

end ScoreScript.CommandLine
