import HardwareLinker.Snapshot.Format
import HardwareLinker.Host

/-!
The snapshots of a directory, one file a stage. A file is written under another name first and then
moved to its place, so that a write that is cut off leaves the snapshot as it was.
-/

namespace HardwareLinker
namespace Snapshot

inductive Fault where
  | io (path : String) (cause : IoFault)
  | flawed (path : String) (flaw : Flaw)
deriving DecidableEq, Repr

def Flaw.message (path : String) : Flaw → String
  | noHeaderLength =>
    "invalid snapshot header in " ++ path ++ ": file shorter than header length"
  | headerCut => "invalid snapshot header in " ++ path ++ ": truncated header"
  | headerUnreadable => "invalid snapshot header in " ++ path ++ ": malformed header"
  | wrongMagic => "invalid snapshot header in " ++ path ++ ": bad magic bytes"
  | wrongVersion version =>
    "version mismatch in " ++ path ++ ": expected " ++ toString formatVersion ++ ", got "
      ++ toString version
  | wrongStage expected actual =>
    "stage mismatch in " ++ path ++ ": expected " ++ expected.name ++ ", got " ++ actual.name
  | wrongChecksum expected actual =>
    "checksum mismatch in " ++ path ++ ": expected " ++ expected.hex ++ ", got " ++ actual.hex
  | groupsUnreadable => "serialization error: malformed groups"

def Fault.message : Fault → String
  | io path cause => "snapshot I/O error at " ++ path ++ ": " ++ cause.message
  | flawed path flaw => flaw.message path

/-- A place for snapshots. -/
structure Store where
  directory : String

namespace Store

def fileName (stage : Stage) : String := stage.name ++ ".snap"

def stagingName (stage : Stage) : String := "." ++ stage.name ++ ".snap.tmp"

def path (s : Store) (stage : Stage) : String := joinPath s.directory (fileName stage)

def stagingPath (s : Store) (stage : Stage) : String := joinPath s.directory (stagingName stage)

variable {m : Type → Type} [Monad m] [Host m]

def attempt {β : Type} (path : String) (action : m (Except IoFault β)) : ExceptT Fault m β :=
  ExceptT.mk do return (← action).mapError (Fault.io path)

/-- Stores groups for a stage, in place of those stored before. -/
def write (s : Store) (stage : Stage) (groups : Snapshot) : ExceptT Fault m String := do
  attempt s.directory (Host.makeDirectories s.directory)
  attempt (s.stagingPath stage) (Host.write (s.stagingPath stage) (encode stage groups))
  attempt (s.path stage) (Host.rename (s.stagingPath stage) (s.path stage))
  return s.path stage

def read (s : Store) (stage : Stage) : ExceptT Fault m Snapshot := do
  let bytes ← attempt (s.path stage) (Host.read (s.path stage))
  ExceptT.mk (return (decode stage bytes).mapError (Fault.flawed (s.path stage)))

/-- The groups stored for a stage; a file that is missing or flawed counts as none. -/
def read? (s : Store) (stage : Stage) : m (Option Snapshot) := do
  return (← (s.read stage).run).toOption

def holds (s : Store) (stage : Stage) : m Bool := Host.isFile (s.path stage)

/-- Deletes what is stored for a stage, and tells whether there was anything. -/
def remove (s : Store) (stage : Stage) : ExceptT Fault m Bool := do
  match ← (Host.remove (s.path stage) : m _) with
  | .ok _ => return true
  | .error .notFound => return false
  | .error cause => throw (.io (s.path stage) cause)

end Store
end Snapshot
end HardwareLinker
