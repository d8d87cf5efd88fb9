import HardwareLinker.Command.Session
import HardwareLinker.Tour.Annealing

/-!
The command `tour`: lists the placed groups along a short closed tour.
-/

namespace HardwareLinker.Command

variable {m : Type → Type} [Monad m] [Host m]

/-- Annotated groups go before placed ones. -/
def latestStage (store : Snapshot.Store) : m Stage := do
  return if ← store.holds .final then .final else .placed

def orderedLine (order : List String) (stage : Stage) : String :=
  s!"Ordered {order.length} group(s) from the {stage.name} snapshot"

def tour (globals : Globals) (a : TourArguments) : Action m Nat := do
  let configured := (← settings globals).tour
  let settings := { configured with seed := a.seed.getD configured.seed }
  let store : Snapshot.Store := ⟨a.snapshots⟩
  let stage ← ExceptT.lift (latestStage store)
  let groups ← stored (store.read stage)
  let order := Tour.ofGroups (Floorplan.ofGroups groups) settings
  print (String.join (order.map (· ++ "\n")))
  progress globals (orderedLine order stage)
  return 0

end HardwareLinker.Command
