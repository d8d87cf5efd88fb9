import HardwareLinker.Decimal.Scaled
import HardwareLinker.Json.Reader
import HardwareLinker.NameMap

/-!
Resource tables: a JSON object that gives the areas of modules.
-/

namespace HardwareLinker.Floorplan

def area? : Json → Option Binary64
  | .number n => n.scaled?
  | _ => none

/-- Of a repeated name the last area holds. -/
def areasOfText? (text : String) : Option (NameMap Binary64) :=
  match Json.ofText? text with
  | some (.object members) =>
    (members.mapM fun e => (area? e.2).map (e.1, ·)).map NameMap.ofList
  | _ => none

end HardwareLinker.Floorplan
