import HardwareLinker.Diagnostic.Basic

/-!
The reports of one run, in the order in which they were made. The error count covers every error
ever reported, also those already taken out.
-/

namespace HardwareLinker

structure Diagnostic.Sink where
  reports : List Diagnostic := []
  errors : Nat := 0
deriving DecidableEq, Repr

namespace Diagnostic.Sink

def empty : Sink := {}

def emit (s : Sink) (d : Diagnostic) : Sink :=
  { reports := s.reports ++ [d]
    errors := if d.severity = .error then s.errors + 1 else s.errors }

def emitAll (s : Sink) (ds : List Diagnostic) : Sink := ds.foldl emit s

def hasErrors (s : Sink) : Bool := 0 < s.errors

/-- Takes every report out; the error count stays. -/
def takeAll (s : Sink) : List Diagnostic × Sink := (s.reports, { s with reports := [] })

/-- The highest severity among the reports still held. -/
def worst? (s : Sink) : Option Severity :=
  s.reports.foldl (fun w d => some (match w with
    | none => d.severity
    | some w => w.worse d.severity)) none

end Diagnostic.Sink
end HardwareLinker
