/-!
What a command needs from the machine that it runs on: files by path, and two streams for its
output.
-/

namespace HardwareLinker

/-- Why the machine refuses a file operation. -/
inductive IoFault where
  | notFound
  | alreadyExists
  | notADirectory
  | isADirectory
  /-- Of a whole path, or of one name in it. -/
  | nameTooLong
  /-- The bytes of a file are no UTF-8 text. -/
  | notText
  | other (reason : String)
deriving DecidableEq, Repr

def IoFault.message : IoFault → String
  | notFound => "No such file or directory (os error 2)"
  | alreadyExists => "File exists (os error 17)"
  | notADirectory => "Not a directory (os error 20)"
  | isADirectory => "Is a directory (os error 21)"
  | nameTooLong => "File name too long (os error 36)"
  | notText => "stream did not contain valid UTF-8"
  | other reason => reason

class Host (m : Type → Type) where
  read : String → m (Except IoFault (List UInt8))
  /-- Creates a file or replaces its bytes. -/
  write : String → List UInt8 → m (Except IoFault Unit)
  /-- Creates a directory and those above it. -/
  makeDirectories : String → m (Except IoFault Unit)
  /-- Moves a file, replacing the file at the new path. -/
  rename : String → String → m (Except IoFault Unit)
  remove : String → m (Except IoFault Unit)
  /-- Writes to the stream of results. -/
  print : String → m Unit
  /-- Writes to the stream of reports. -/
  report : String → m Unit

namespace Host

variable {m : Type → Type} [Monad m] [Host m]

def textOfBytes (bytes : List UInt8) : Except IoFault String :=
  match String.fromUTF8? ⟨bytes.toArray⟩ with
  | some s => .ok s
  | none => .error .notText

def readText (path : String) : m (Except IoFault String) := do
  return (← read path).bind textOfBytes

def writeText (path text : String) : m (Except IoFault Unit) := write path text.toUTF8.toList

def isFile (path : String) : m Bool := return (← read path).isOk

/-- Whether anything, a file or a directory, is at a path. -/
def isThere (path : String) : m Bool := do
  match ← read path with
  | .error .notFound | .error .notADirectory => return false
  | _ => return true

end Host

/-- A path below a directory. -/
def joinPath (directory name : String) : String :=
  if directory.isEmpty || directory.endsWith "/" then directory ++ name
  else directory ++ "/" ++ name

end HardwareLinker
