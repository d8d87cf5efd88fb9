import HardwareLinker.Milp.Model
import HardwareLinker.Text.Blank
import HardwareLinker.Text.Lines

/-!
The solution files of the two external solvers. One gives a status line and then values by name,
the other a status record and values by column, counted from one. Variables left out are zero; a
solution that is not optimal is refused.
-/

namespace HardwareLinker.Milp

/-- Why a solution file gives no assignment. -/
inductive SolutionFault where
  | cbcInfeasible (status : String)
  | cbcStatus (status : String)
  | cbcValue (line : String)
  | cbcColumn (name : String)
  | glpkInfeasible
  | glpkColumn (field : String)
  | glpkValue (field : String)
  | glpkRange (column : Nat)
  | glpkStatus (status : String)
  | glpkNoStatus
deriving DecidableEq, Repr

def SolutionFault.failure : SolutionFault → Failure
  | cbcInfeasible status => .infeasible s!"cbc: {status}"
  | cbcStatus status => .failed s!"cbc: {status}"
  | cbcValue line => .failed s!"cbc: unreadable value in `{line}`"
  | cbcColumn name => .failed s!"cbc: unknown column `{name}`"
  | glpkInfeasible => .infeasible "glpk: no integer feasible solution"
  | glpkColumn field => .failed s!"glpk: bad column `{field}`"
  | glpkValue field => .failed s!"glpk: bad value `{field}`"
  | glpkRange column => .failed s!"glpk: column {column} out of range"
  | glpkStatus status => .failed s!"glpk: status `{status}`"
  | glpkNoStatus => .failed "glpk: no solution status line"

variable {α : Type} [Scalar α]

def readValue? (field : String) : Option α := (Numeral.ofString? field).bind Scalar.ofNumeral?

def fieldsOf (line : List Char) : List String := (Text.words line).map String.ofList

namespace Cbc

/-- A value line holds an index, a name and a value, perhaps after a mark; shorter ones say
nothing. -/
def readLine (m : Model α) (a : Assignment α) (line : List Char) :
    Except SolutionFault (Assignment α) :=
  match (fieldsOf line).filter (· != "**") with
  | _ :: name :: field :: _ =>
    match readValue? field with
    | none => .error (.cbcValue (String.ofList (Text.trim line)))
    | some value =>
      match m.indexOf? name with
      | some v => .ok (a.setIfInBounds v value)
      | none => .error (.cbcColumn name)
  | _ => .ok a

def checkStatus (status : List Char) : Except SolutionFault Unit :=
  let text := String.ofList status
  if "Infeasible".toList.isPrefixOf status || (Text.after? "infeasible".toList status).isSome then
    .error (.cbcInfeasible text)
  else if "Optimal".toList.isPrefixOf status then .ok ()
  else .error (.cbcStatus text)

def read (m : Model α) (text : String) : Except SolutionFault (Assignment α) := do
  let lines := Text.lines text.toList
  checkStatus (Text.trim (lines.headD []))
  lines.tail.foldlM (readLine m) (Array.replicate m.vars.size 0)

end Cbc

namespace Glpk

/-- What the records read so far say. -/
structure Progress (α : Type) where
  values : Assignment α
  status : Option String := none

def readColumn (p : Progress α) (column field : String) : Except SolutionFault (Progress α) :=
  match natBelow? (UInt64.size - 1) column with
  | none => .error (.glpkColumn column)
  | some n =>
    match readValue? field with
    | none => .error (.glpkValue field)
    | some value =>
      if 0 < n ∧ n ≤ p.values.size then
        .ok { p with values := p.values.setIfInBounds (n - 1) value }
      else .error (.glpkRange n)

def readLine (p : Progress α) (line : List Char) : Except SolutionFault (Progress α) :=
  match fieldsOf line with
  | "s" :: "mip" :: _ :: _ :: status :: _ => .ok { p with status := some status }
  | "j" :: column :: field :: _ => readColumn p column field
  | _ => .ok p

/-- The last status record counts. -/
def read (m : Model α) (text : String) : Except SolutionFault (Assignment α) := do
  let start : Progress α := { values := Array.replicate m.vars.size 0 }
  let p ← (Text.lines text.toList).foldlM readLine start
  match p.status with
  | none => .error .glpkNoStatus
  | some status =>
    if status == "o" then return p.values
    else if status == "n" then .error .glpkInfeasible
    else .error (.glpkStatus status)

end Glpk
end HardwareLinker.Milp
