import HardwareLinker.Command.Request
import HardwareLinker.Constraint.File
import HardwareLinker.Diagnostic.Console
import HardwareLinker.Floorplan.Fault
import HardwareLinker.Graph.Assembly
import HardwareLinker.Graph.Review
import HardwareLinker.Milp.Backend
import HardwareLinker.Settings.Configuration
import HardwareLinker.Snapshot.Store

/-!
What the commands share: looking up settings, loading and reviewing a graph, and turning faults into
reports. A command that cannot go on at all fails with a single line; everything else that it finds
is reported at its end.
-/

namespace HardwareLinker.Command

open Diagnostic

/-- What a run is told about its surroundings. -/
structure Surroundings where
  /-- The kind of the terminal, if it names itself. -/
  terminal : Option String := none
  /-- Runs an external solver on a model. -/
  launch : Milp.Program → String → Milp.ProgramRun := fun _ _ =>
    .notStarted IoFault.notFound.message

/-- A command on a machine: it ends with an exit code or fails with a line. -/
abbrev Action (m : Type → Type) (β : Type) := ExceptT String m β

variable {m : Type → Type} [Monad m] [Host m]

def print (s : String) : Action m Unit := ExceptT.lift (Host.print s)

def report (s : String) : Action m Unit := ExceptT.lift (Host.report s)

/-- Fails with a line that says what could not be done with a path. -/
def demandFile {β : Type} (verb path : String) (action : m (Except IoFault β)) : Action m β :=
  ExceptT.mk do
    return (← action).mapError fun e => "cannot " ++ verb ++ " " ++ path ++ ": " ++ e.message

def readText (path : String) : Action m String := demandFile "read" path (Host.readText path)

def writeText (path text : String) : Action m Unit :=
  demandFile "write" path (Host.writeText path text)

def stored {β : Type} (action : ExceptT Snapshot.Fault m β) : Action m β :=
  action.adapt Snapshot.Fault.message

/-- What an earlier run stored, if it can be read. -/
def earlier (store : Snapshot.Store) (stage : Stage) : Action m (Option Snapshot) :=
  ExceptT.lift (store.read? stage)

/-! ## Settings -/

def settingsAt (path : String) : m (Except Settings.Fault (Settings Binary64)) := do
  match ← Host.read path with
  | .ok bytes => return Settings.ofFile path bytes
  | .error e => return .error (.unreadable path e.message)

/-- The configuration asked for, else that of the working directory, else the defaults. -/
def lookUpSettings (g : Globals) : m (Except Settings.Fault (Settings Binary64)) := do
  match g.configuration with
  | some path => settingsAt path
  | none =>
    if ← Host.isThere Settings.fileName then settingsAt Settings.fileName else return .ok {}

def settings (g : Globals) : Action m (Settings Binary64) :=
  ExceptT.mk do return (← lookUpSettings g).mapError Settings.Fault.message

/-! ## Reports on faults -/

def inputCode : Code := ⟨.error, 101⟩

def recordCode : Code := ⟨.error, 102⟩

def emptyGraphCode : Code := ⟨.error, 103⟩

def statementCode : Code := ⟨.placement, 101⟩

def contradictionCode : Code := ⟨.placement, 102⟩

def infeasibleCode : Code := ⟨.placement, 103⟩

def solverCode : Code := ⟨.placement, 104⟩

def failure (code : Code) (message : String) (subject : Subject) : Diagnostic :=
  { severity := .error, code, message, subject }

/-- The report on a graph fault that a log brought about. -/
def graphReport (log : String) (f : Graph.Fault) : Diagnostic :=
  match f with
  | .malformedRecord line fault =>
    failure recordCode ("malformed connection record: " ++ fault.message) (.line log line)
  | .duplicateModule name =>
    { failure inputCode f.message (.module name) with notes := ["while merging " ++ log] }
  | .typeMismatch t =>
    { failure inputCode f.message (.connection t.secondOwner t.name) with
      labels := [{ subject := .module t.firstOwner, message := "first declared here" }] }
  | .unmatched _ => failure inputCode f.message .nothing

def constraintReport (file : String) (f : Constraint.Fault) : Diagnostic :=
  match f with
  | .statement line fault => failure statementCode fault.message (.line file line)
  | _ => failure contradictionCode f.message .nothing

def floorplanReport (f : Floorplan.Fault Binary64) : Diagnostic :=
  match f.family with
  | .configuration => failure contradictionCode f.message .nothing
  | .infeasible =>
    { failure infeasibleCode f.message .nothing with
      help := ["enlarge the chip or relax fixed dimensions"] }
  | .solver | .io => failure solverCode f.message .nothing

/-! ## Graphs -/

/-- Adds the modules of a log to a graph. -/
def extend (g : Graph Binary64) (log : String) : Except Graph.Fault (Graph Binary64) := do
  let ends ← Graph.endsOfLog log
  g.merge (← Graph.ofConnections ends)

/-- The graph of several logs, merged in their order up to the first that does not fit. -/
def loadGraph (g : Graph Binary64) : List String → Action m (Except Diagnostic (Graph Binary64))
  | [] => return .ok g
  | path :: rest => do
    match extend g (← readText path) with
    | .ok g => loadGraph g rest
    | .error f => return .error (graphReport path f)

/-- A graph ready for use, the reports on it, and whether it is accepted. -/
structure Reviewed where
  graph : Graph Binary64
  reports : List Diagnostic
  accepted : Bool

/-- Trims a graph if the settings ask for it, and looks for required ends without a partner. -/
def review (settings : GraphSettings) (allowUnmatched : Bool) (g : Graph Binary64) : Reviewed :=
  let trimmed := if settings.trimOptional then g.trim else g
  let trimReports := if settings.trimOptional then g.trimReports else []
  let tolerate := allowUnmatched || settings.allowUnmatched
  { graph := trimmed
    reports := trimReports ++ trimmed.unmatchedReports tolerate
    accepted := (trimmed.checkUnmatched tolerate).isOk }

/-! ## The end of a run -/

def coloured (s : Surroundings) : Colouring → Bool
  | .always => true
  | .never => false
  | .auto => s.terminal.any (· != "dumb")

def count (severity : Severity) (reports : List Diagnostic) : Nat :=
  reports.countP fun d => d.severity = severity

/-- The exit code of a run with these reports. -/
def exitCode (reports : List Diagnostic) : Nat := if 0 < count .error reports then 1 else 0

def summary (reports : List Diagnostic) : String :=
  s!"   Result: {count .error reports} error(s), {count .warning reports} warning(s)\n"

/-- What a run with these reports leaves on the stream of reports. -/
def closing (s : Surroundings) (g : Globals) (reports : List Diagnostic) : String :=
  let shown := reports.filter fun d => !g.quiet || d.severity = .error
  let total := count .error reports + count .warning reports
  String.join (shown.map (Diagnostic.render (coloured s g.colouring)))
    ++ (if !g.quiet && 0 < total then summary reports else "")

def finish (s : Surroundings) (g : Globals) (reports : List Diagnostic) : Action m Nat := do
  report (closing s g reports)
  return exitCode reports

/-- A line on the course of a run. -/
def progress (g : Globals) (line : String) : Action m Unit := do
  unless g.quiet do report ("   " ++ line ++ "\n")

end HardwareLinker.Command
