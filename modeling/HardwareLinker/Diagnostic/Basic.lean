/-!
Diagnostics: coded, located reports. A design has no source text to underline, so a report is
located by the name of the module, connection or area group that it is about.
-/

namespace HardwareLinker

inductive Severity where
  | note
  | warning
  | error
deriving DecidableEq, Repr

namespace Severity

def name : Severity → String
  | note => "note"
  | warning => "warning"
  | error => "error"

def rank : Severity → Nat
  | note => 0
  | warning => 1
  | error => 2

/-- The worse of two severities. -/
def worse (a b : Severity) : Severity := if a.rank < b.rank then b else a

end Severity

namespace Diagnostic

inductive Category where
  /-- Faults of the graph or of an input. -/
  | error
  /-- Graph faults that may be tolerated. -/
  | warning
  /-- Faults of the floorplan. -/
  | placement
deriving DecidableEq, Repr

def Category.letter : Category → String
  | error => "E"
  | warning => "W"
  | placement => "P"

structure Code where
  category : Category
  number : Nat
deriving DecidableEq, Repr

/-- The letter of the category and at least three digits. -/
def Code.text (c : Code) : String :=
  let digits := toString c.number
  c.category.letter ++ String.ofList (List.replicate (3 - digits.length) '0') ++ digits

/-- What a report is about. -/
inductive Subject where
  | nothing
  | module (name : String)
  | connection (owner name : String)
  | areaGroup (name : String)
  | line (file : String) (number : Nat)
deriving DecidableEq, Repr

def Subject.text : Subject → String
  | nothing => ""
  | module name => s!"module `{name}`"
  | connection owner name => s!"connection `{name}` in `{owner}`"
  | areaGroup name => s!"area group `{name}`"
  | line file number => s!"{file}:{number}"

/-- Another entity that a report involves. A primary label points at the fault itself. -/
structure Label where
  subject : Subject
  message : String
  primary : Bool := false
deriving DecidableEq, Repr

end Diagnostic

open Diagnostic in
structure Diagnostic where
  severity : Severity
  code : Code
  message : String
  subject : Subject
  labels : List Label := []
  notes : List String := []
  help : List String := []
deriving DecidableEq, Repr

end HardwareLinker
