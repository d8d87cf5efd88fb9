import HardwareLinker.Command.Run

/-!
The program: the real machine as a host, and the entry point. External solvers are not started from
here.
-/

namespace HardwareLinker

/-- The number of a condition, which some operations negate. -/
def conditionNumber (code : UInt32) : UInt32 := min code (-code)

/-- The condition behind a failed file operation. -/
def IoFault.ofError (e : IO.Error) : IoFault :=
  match e with
  | .noFileOrDirectory .. => notFound
  | .alreadyExists .. => alreadyExists
  | .inappropriateType _ code _ =>
    if conditionNumber code = 21 then isADirectory else notADirectory
  | .invalidArgument _ code _ =>
    if conditionNumber code = 36 then nameTooLong else other (toString e)
  | _ => other (toString e)

def attempted {β : Type} (action : IO β) : IO (Except IoFault β) := do
  try return .ok (← action)
  catch e => return .error (.ofError e)

instance : Host IO where
  read path := attempted do return (← IO.FS.readBinFile path).toList
  write path bytes := attempted (IO.FS.writeBinFile path ⟨bytes.toArray⟩)
  makeDirectories path :=
    if path.isEmpty then return .ok () else attempted (IO.FS.createDirAll path)
  rename source target := attempted (IO.FS.rename source target)
  remove path := attempted (IO.FS.removeFile path)
  print s := IO.print s
  report s := IO.eprint s

end HardwareLinker

def main (args : List String) : IO UInt32 := do
  let surroundings : HardwareLinker.Command.Surroundings := { terminal := ← IO.getEnv "TERM" }
  return (← HardwareLinker.Command.run surroundings args).toUInt32
