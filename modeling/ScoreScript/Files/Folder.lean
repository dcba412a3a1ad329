import ScoreScript.Files

/-!
# A folder of files

A working directory as a value: the directories and files in it, and how paths lead to them. A path
is followed part by part, from the folder or from the root. Each part must find itself in a
directory that is there, so `a/../b` leads nowhere without `a`. Outside the folder only the
directories that enclose it are known to be there, and those that every system has.
-/

namespace ScoreScript

inductive Origin where
  /-- So many levels above the folder; none for the folder itself. -/
  | above (levels : Nat)
  | root
deriving DecidableEq

/-- The directory that encloses an origin. The root encloses itself. -/
def Origin.parent : Origin → Origin
  | above levels => above (levels + 1)
  | root => root

/-- A place: an origin and the names on the way from it, innermost first. -/
structure Place where
  origin : Origin := .above 0
  names : List String := []
deriving DecidableEq

namespace Place

def parent (place : Place) : Place :=
  match place.names with
  | [] => { place with origin := place.origin.parent }
  | _ :: outer => { place with names := outer }

def child (place : Place) (name : String) : Place :=
  { place with names := name :: place.names }

end Place

/-- A working directory and what is known around it. An origin is always a directory. -/
structure Folder where
  directories : List Place := []
  files : List (Place × String) := []

namespace Folder

inductive Node where
  | directory
  | file (content : String)
deriving DecidableEq

def node? (folder : Folder) (place : Place) : Option Node :=
  match folder.files.lookup place with
  | some content => some (.file content)
  | none =>
      if place.names.isEmpty || folder.directories.contains place then some .directory else none

def partsOf (path : String) : List String :=
  (path.toList.splitOn '/').map String.ofList

def startOf (path : String) : Place :=
  if path.startsWith "/" then { origin := .root } else {}

def nameLimit : Nat := 255

def pathLimit : Nat := 4095

def isIdle (part : String) : Bool :=
  part == "" || part == "."

/-- The place that one part of a path leads to from a directory. -/
def step (place : Place) (part : String) : Place :=
  if isIdle part then place
  else if part == ".." then place.parent
  else place.child part

def follow (folder : Folder) : Place → List String → Except FileFault Place
  | place, [] => .ok place
  | place, part :: parts =>
      match folder.node? place with
      | none => .error .missing
      | some (.file _) => .error .notDirectory
      | some .directory =>
          if part.utf8ByteSize > nameLimit then .error .nameTooLong
          else folder.follow (step place part) parts

def checkPath (path : String) : Except FileFault Unit :=
  if path.utf8ByteSize > pathLimit then .error .nameTooLong else .ok ()

def read (folder : Folder) (path : String) : Except FileFault String := do
  checkPath path
  let place ← folder.follow (startOf path) (partsOf path)
  match folder.node? place with
  | none => .error .missing
  | some .directory => .error .isDirectory
  | some (.file content) => .ok content

/-- Have a directory, whose parts are given last first, inside one that is there. -/
def ensureDirectory (start : Place) (parts : List String) (folder : Folder) :
    Except FileFault Folder := do
  let place ← folder.follow start parts.reverse
  match folder.node? place with
  | none => .ok { folder with directories := place :: folder.directories }
  | some .directory => .ok folder
  | some (.file _) => .error .occupied

/-- Have a directory, whose parts are given last first, and all those on the way to it. -/
def ensureDirectories (start : Place) : List String → Folder → Except FileFault Folder
  | [], folder => .ok folder
  | part :: outer, folder =>
      match folder.ensureDirectory start (part :: outer) with
      | .error .missing => do
          let folder ← ensureDirectories start outer folder
          folder.ensureDirectory start (part :: outer)
      | outcome => outcome

def put (folder : Folder) (place : Place) (content : String) : Folder :=
  { folder with
    files := (place, content) :: folder.files.filter (fun file => file.1 != place) }

def write (folder : Folder) (path content : String) : Except FileFault Folder := do
  checkPath path
  let parts := partsOf path
  let outer := (parts.dropLast.filter (fun part => !isIdle part)).reverse
  let folder ← ensureDirectories (startOf path) outer folder
  let place ← folder.follow (startOf path) parts
  if folder.node? place = some .directory then .error .isDirectory
  else return folder.put place content

/-- The places of the directories on the way to a place that has the given names. -/
def enclosing : List String → List Place
  | [] => []
  | _ :: outer => { names := outer } :: enclosing outer

/-- The directories that every system has under its root. -/
def systemDirectories : List Place :=
  ["bin", "boot", "dev", "etc", "home", "lib", "media", "mnt", "opt", "proc", "root", "run", "sbin",
    "srv", "sys", "tmp", "usr", "var"].map (fun name => { origin := .root, names := [name] })

/-- The file that every system has and that is always empty. -/
def emptyFile : Place :=
  { origin := .root, names := ["null", "dev"] }

def ofFiles (files : List (String × String)) : Folder :=
  let named := files.map (fun file => ((partsOf file.1).reverse, file.2))
  { directories := named.flatMap (fun file => enclosing file.1) ++ systemDirectories
    files := named.map (fun file => ({ names := file.1 }, file.2)) ++ [(emptyFile, "")] }

def toFiles (folder : Folder) : List (String × String) :=
  (folder.files.filter (fun file => file.1.origin = .above 0)).map
    (fun file => ("/".intercalate file.1.names.reverse, file.2))

def access : FileAccess (StateM Folder) where
  read path := return (← get).read path
  write path content := do
    match (← get).write path content with
    | .ok folder =>
        set folder
        return .ok ()
    | .error fault => return .error fault

end Folder

end ScoreScript
