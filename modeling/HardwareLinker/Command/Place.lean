import HardwareLinker.Command.Session
import HardwareLinker.Floorplan.Elaboration
import HardwareLinker.Floorplan.Resources
import HardwareLinker.Floorplan.Solve

/-!
The command `place`: elaborates the groups of a constraint file, places them, and stores both. A run
whose constraints or solver give up deletes what earlier runs placed.
-/

namespace HardwareLinker.Command

variable {m : Type → Type} [Monad m] [Host m]

def readAreas : Option String → Action m (NameMap Binary64)
  | none => return .empty
  | some path => do
    match Floorplan.areasOfText? (← readText path) with
    | some areas => return areas
    | none => throw ("invalid resource table " ++ path)

/-- The plan of a constraint file, or the report on why there is none. -/
def planOf (file source : String) (areas : NameMap Binary64)
    (settings : PlacementSettings Binary64) : Except Diagnostic (Floorplan Binary64) := do
  let set ← (ConstraintSet.ofText source).mapError (constraintReport file)
  (Floorplan.elaborate set areas settings).mapError floorplanReport

/-- Deletes what earlier runs placed. -/
def discardPlacement (store : Snapshot.Store) : Action m Unit := do
  for stage in [Stage.placed, Stage.final] do
    let _ ← stored (store.remove stage)

def giveUp (s : Surroundings) (globals : Globals) (store : Snapshot.Store) (d : Diagnostic) :
    Action m Nat := do
  discardPlacement store
  finish s globals [d]

/-- The traffic of some logs; without logs there is none. -/
def loadTraffic : List String → Action m (Except Diagnostic (TrafficTable Binary64))
  | [] => return .ok .empty
  | logs => return (← loadGraph .empty logs).map TrafficTable.ofGraph

def padded (name : String) : String :=
  name ++ String.ofList (List.replicate (24 - name.length) ' ')

def groupLine (g : AreaGroup Binary64) : String :=
  let point (x y : Binary64) := "(" ++ Scalar.text x ++ ", " ++ Scalar.text y ++ ")"
  padded g.name ++ " " ++
    (if g.isEmptyBox then "empty box"
    else match g.bounds? with
      | some b => point b.left b.bottom ++ " .. " ++ point b.right b.top
      | none => "unplaced") ++ "\n"

def placedLine (p : Floorplan Binary64) (path : String) : String :=
  s!"Placed {p.groups.size} group(s) on {Scalar.text p.chip.width}x{Scalar.text p.chip.height}, "
    ++ "wrote " ++ path

def showPlan (globals : Globals) (p : Floorplan Binary64) (path : String) : Action m Unit := do
  unless globals.quiet do print (String.join (p.groups.values.map groupLine))
  progress globals (placedLine p path)

/-- Places an elaborated plan and stores the result. -/
def placePlan (s : Surroundings) (globals : Globals) (a : PlaceArguments)
    (settings : PlacementSettings Binary64) (traffic : TrafficTable Binary64)
    (plan : Floorplan Binary64) : Action m Nat := do
  let store : Snapshot.Store := ⟨a.snapshots⟩
  let prior ← if a.reuse then earlier store .placed else pure none
  let run : Floorplan.Run Binary64 :=
    { traffic, solver := Milp.solverOf settings s.launch, settings }
  match run.solve plan prior with
  | .error f => giveUp s globals store (floorplanReport f)
  | .ok placed =>
    let path ← stored (store.write .placed placed.groups)
    showPlan globals placed path
    finish s globals []

def place (s : Surroundings) (globals : Globals) (a : PlaceArguments) : Action m Nat := do
  let configured := (← settings globals).placement
  let settings := { configured with backend := a.backend.getD configured.backend }
  let store : Snapshot.Store := ⟨a.snapshots⟩
  let source ← readText a.constraints
  let areas ← readAreas a.resources
  match planOf a.constraints source areas settings with
  | .error d => giveUp s globals store d
  | .ok plan =>
    let _ ← stored (store.write .elaborated plan.groups)
    match ← loadTraffic a.logs with
    | .error d => finish s globals [d]
    | .ok traffic => placePlan s globals a settings traffic plan

end HardwareLinker.Command
