/-!
# Files

What the program needs of the files around it: to read one, and to write one together with the
directories it stands in. Either can fail, and a failure has a cause of its own.
-/

namespace ScoreScript

inductive FileFault where
  | missing
  /-- Something that is no directory stands where a directory is to be made. -/
  | occupied
  /-- A path leads through something that is no directory. -/
  | notDirectory
  /-- A directory stands where a file is needed. -/
  | isDirectory
  /-- A path, or a name in it, is longer than paths and names can be. -/
  | nameTooLong
  | other (reason : String)
deriving DecidableEq

namespace FileFault

def message : FileFault → String
  | missing => "No such file or directory (os error 2)"
  | occupied => "File exists (os error 17)"
  | notDirectory => "Not a directory (os error 20)"
  | isDirectory => "Is a directory (os error 21)"
  | nameTooLong => "File name too long (os error 36)"
  | other reason => reason

/-- Whether the fault says that nothing stands at a path. -/
def isAbsence : FileFault → Bool
  | missing | notDirectory | nameTooLong => true
  | occupied | isDirectory | other _ => false

end FileFault

structure FileAccess (m : Type → Type) where
  read : String → m (Except FileFault String)
  /-- Write a file, and make the directories on the way to it that are missing. -/
  write : String → String → m (Except FileFault Unit)

end ScoreScript
