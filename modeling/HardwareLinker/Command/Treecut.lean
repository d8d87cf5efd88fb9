import HardwareLinker.Command.Session
import HardwareLinker.Floorplan.Hints
import HardwareLinker.Tree.Build
import HardwareLinker.Tree.Report

/-!
The command `treecut`: cuts the module graph of some logs into a merge tree, along the stored
placement if there is one, reports the tree, and stores the placed groups with their paths in it.
-/

namespace HardwareLinker.Command

variable {m : Type → Type} [Monad m] [Host m]

/-- Hints from a placed plan. -/
def guideOf (settings : PlacementSettings Binary64) (g : Graph Binary64)
    (plan : Floorplan Binary64) : MergeTree.Hints Binary64 :=
  let guide : Floorplan.Guide Binary64 :=
    { plan, parentChildWeight := settings.parentChildWeight
      bufferDistance := settings.bufferDistance, chains := g.chainCarriers }
  guide.hints

/-- The plan that an earlier placement stored. -/
def storedPlan (store : Snapshot.Store) (usePlacement : Bool) :
    Action m (Option (Floorplan Binary64)) :=
  if usePlacement then do return (← earlier store .placed).map Floorplan.ofGroups else return none

def writeReport (text : String) : Option String → Action m Unit
  | some path => writeText path text
  | none => print (text ++ "\n")

def partitionedLine (g : Graph Binary64) (t : MergeTree Binary64) : String :=
  s!"Partitioned {g.modules.size} module(s) into {t.size} node(s), " ++
    s!"{t.boundaries.length} boundary(ies), depth {t.depth}"

/-- The tree of a reviewed graph, its report, and the groups of the plan with their paths. -/
def cutGraph (s : Surroundings) (globals : Globals) (a : TreecutArguments)
    (settings : Settings Binary64) (r : Reviewed) : Action m Nat := do
  let store : Snapshot.Store := ⟨a.snapshots⟩
  let plan ← storedPlan store (settings.tree.usePlacement && a.usePlacement)
  let hints := match plan with
    | some plan => guideOf settings.placement r.graph plan
    | none => .none
  match MergeTree.build r.graph hints (a.threshold.getD settings.tree.ruleThreshold) with
  | .error .emptyGraph =>
    finish s globals (r.reports ++ [failure emptyGraphCode "no modules to partition" .nothing])
  | .error (.graph f) =>
    finish s globals (r.reports ++ [graphReport (a.logs.getLast?.getD "-") f])
  | .error (.internal defect) => throw (MergeTree.Fault.internal defect).message
  | .ok tree =>
    writeReport ((tree.report r.graph).pretty 0) a.output
    if let some plan := plan then
      let _ ← stored (store.write .final (plan.annotate tree.modulePaths).2.groups)
    progress globals (partitionedLine r.graph tree)
    finish s globals r.reports

def treecut (s : Surroundings) (globals : Globals) (a : TreecutArguments) : Action m Nat := do
  let settings ← settings globals
  match ← loadGraph .empty a.logs with
  | .error d => finish s globals [d]
  | .ok g =>
    let r := review settings.graph a.allowUnmatched g
    if r.accepted then cutGraph s globals a settings r else finish s globals r.reports

end HardwareLinker.Command
