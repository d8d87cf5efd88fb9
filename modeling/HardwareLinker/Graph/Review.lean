import HardwareLinker.Graph.Basic
import HardwareLinker.Diagnostic.Sink

/-!
Review of an assembled graph before it is used: optional ends that found no partner leave the
interfaces with a warning, required ones are reported.
-/

namespace HardwareLinker.Graph

open Diagnostic

variable {α : Type}

def unmatchedCode : Code := ⟨.error, 201⟩

def trimmedCode : Code := ⟨.warning, 202⟩

/-- An optional end without a partner. -/
def isIdle (g : Graph α) (c : ConnectionId) : Bool :=
  (g.connection? c).any fun e => e.optional && !e.matched

def idleEnds (g : Graph α) : List ConnectionId :=
  (g.modules.values.flatMap Module.ends).filter g.isIdle

/-- Takes the idle ends off the interfaces; the table of ends stays as it is. -/
def trim (g : Graph α) : Graph α :=
  { g with
    modules := g.modules.mapValues fun _ m =>
      { m with
        channels := m.channels.filter (!g.isIdle ·)
        chains := m.chains.filter (!g.isIdle ·) } }

def trimReport (e : Connection α) : Diagnostic :=
  { severity := .warning
    code := trimmedCode
    message := s!"optional {e.kind.text} `{e.name}` has no partner and was trimmed"
    subject := .connection e.owner e.name }

def trimReports (g : Graph α) : List Diagnostic :=
  g.idleEnds.filterMap fun c => (g.connection? c).map trimReport

/-- Other modules that list an end of the same name and kind. -/
def rivals (g : Graph α) (e : Connection α) : List String :=
  (g.modules.entries.filter fun (name, m) =>
    name != e.owner &&
      m.ends.any fun o => (g.connection? o).any fun other =>
        other.name == e.name && other.kind == e.kind).map Prod.fst

/-- The report on a required end; where a partial graph is tolerated it is a warning. -/
def unmatchedReport (g : Graph α) (tolerate : Bool) (e : Connection α) : Diagnostic :=
  { severity := if tolerate then .warning else .error
    code := unmatchedCode
    message := s!"required {e.kind.text} `{e.name}` ({e.type}) has no partner"
    subject := .connection e.owner e.name
    labels := (g.rivals e).map fun other =>
      { subject := .module other
        message := "also declares this endpoint in the same direction" } }

def unmatchedReports (g : Graph α) (tolerate : Bool) : List Diagnostic :=
  g.unmatched.filterMap fun c => (g.connection? c).map (g.unmatchedReport tolerate)

/-- A graph with required ends left open is refused unless that is tolerated. -/
def checkUnmatched (g : Graph α) (tolerate : Bool) : Except Fault Unit :=
  if g.unmatched.isEmpty || tolerate then .ok () else .error (.unmatched g.unmatched.length)

end HardwareLinker.Graph
