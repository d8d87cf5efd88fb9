import HardwareLinker.Milp.Model

/-!
Models as text in the LP format that external solvers read. Every variable is listed in the
objective, in order, so that a solver which numbers columns by first appearance numbers them as the
model does.
-/

namespace HardwareLinker.Milp

variable {α : Type} [Scalar α]

/-- One term; the sign of a first term that is not negative is left out. -/
def termText (first : Bool) (coefficient : α) (name : String) : String :=
  let magnitude := Scalar.text (Scalar.abs coefficient) ++ " " ++ name
  if first && 0 ≤ coefficient then " " ++ magnitude
  else if coefficient < 0 then " - " ++ magnitude
  else " + " ++ magnitude

def termsText (terms : List (α × String)) : String :=
  String.join (terms.zipIdx.map fun ((c, name), i) => termText (i == 0) c name)

def Sense.text : Sense → String
  | atMost => "<="
  | atLeast => ">="
  | equal => "="

namespace Model

def nameOf (m : Model α) (v : Nat) : String := (m.vars[v]?.map (·.name)).getD ""

/-- The coefficient of every variable in the objective. -/
def costs (m : Model α) : Array α :=
  m.objective.foldl (fun costs (v, c) => costs.modify v (· + c))
    (Array.replicate m.vars.size 0)

/-- A row without terms gets the first column with zero weight, since a row needs one. -/
def rowTerms (m : Model α) (r : Row α) : List (α × String) :=
  if r.terms.isEmpty then
    match m.vars[0]? with
    | some first => [(0, first.name)]
    | none => []
  else r.terms.map fun (v, c) => (c, m.nameOf v)

def rowLine (m : Model α) (r : Row α) : String :=
  " " ++ r.name ++ ":" ++ termsText (m.rowTerms r) ++ " " ++ r.sense.text ++ " "
    ++ Scalar.text r.bound ++ "\n"

def boundLine (v : Variable α) : String :=
  let lower := if Scalar.isFinite v.lower then Scalar.text v.lower else "-inf"
  let upper := match v.upper with
    | some u => if Scalar.isFinite u then Scalar.text u else "+inf"
    | none => "+inf"
  " " ++ lower ++ " <= " ++ v.name ++ " <= " ++ upper ++ "\n"

def toLp (m : Model α) : String :=
  let vars := m.vars.toList
  let binaries := vars.filter (·.binary)
  "\\ lim placement model\nMinimize\n obj:"
    ++ termsText (m.costs.toList.zip (vars.map (·.name)))
    ++ "\nSubject To\n" ++ String.join (m.rows.map m.rowLine)
    ++ "Bounds\n" ++ String.join ((vars.filter (!·.binary)).map boundLine)
    ++ (if binaries.isEmpty then ""
      else "Binaries\n" ++ String.join (binaries.map fun v => " " ++ v.name ++ "\n"))
    ++ "End\n"

end Model
end HardwareLinker.Milp
