import HardwareLinker.Diagnostic.Basic

/-!
The console form of a report: a headline, its subject, one line a label, then notes and help.
-/

namespace HardwareLinker.Diagnostic

/-- The colour that marks a severity. -/
def colour : Severity → String
  | .error => "1;31"
  | .warning => "1;33"
  | .note => "1;36"

def severityText (color : Bool) (s : Severity) : String :=
  if color then "\x1b[" ++ colour s ++ "m" ++ s.name ++ "\x1b[0m" else s.name

def Label.line (l : Label) : String :=
  let marker := if l.primary then "^" else "-"
  "   " ++ marker ++ " " ++ l.subject.text ++ ": " ++ l.message

def remarkLines (kind : String) (lines : List String) : List String :=
  lines.map fun line => "   = " ++ kind ++ ": " ++ line

/-- Every line ends in a line feed. -/
def render (color : Bool) (d : Diagnostic) : String :=
  let headline := severityText color d.severity ++ "[" ++ d.code.text ++ "]: " ++ d.message
  let subject := if d.subject = .nothing then [] else ["  --> " ++ d.subject.text]
  let lines := headline :: subject ++ d.labels.map Label.line
    ++ remarkLines "note" d.notes ++ remarkLines "help" d.help
  String.join (lines.map (· ++ "\n"))

end HardwareLinker.Diagnostic
