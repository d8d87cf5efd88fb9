import HardwareLinker.Floorplan.Batch
import HardwareLinker.Floorplan.Rules

/-!
Placing every free group: rules first, then batches of the free groups, largest area first, each
batch seeing the ones before as fixed. When a batch fails, the run starts over with the next batch
size. Whatever the solver answers, a plan that it was asked for is handed out only if it passes the
final check; a plan without free groups is handed out as it is.
-/

namespace HardwareLinker.Floorplan

open Milp

variable {α : Type} [Scalar α]

/-- The size that a group had in an earlier run, if its area has hardly changed. -/
def priorSize? (prior : NameMap (AreaGroup α)) (tolerance : α) (g : AreaGroup α) :
    Option (Size α) := do
  if g.isPlaced || g.dimension.fixed?.isSome then none
  else
    let old ← prior.find? g.name
    let size ← old.dimension.fixed?
    if Scalar.abs (g.area - old.area) ≤ tolerance * old.area then some size else none

/-- Takes over sizes from an earlier run; locations are not taken over. -/
def seedFromPrior (p : Floorplan α) (prior : NameMap (AreaGroup α)) (tolerance : α) :
    List String × Floorplan α :=
  ((p.groups.values.filter fun g => (priorSize? prior tolerance g).isSome).map (·.name),
    { p with groups := p.groups.mapValues fun _ g =>
        match priorSize? prior tolerance g with
        | some size => { g with dimension := .fixed size }
        | none => g })

def solvesBefore (a b : AreaGroup α) : Bool :=
  match Scalar.compareTotal b.area a.area with
  | .lt => true
  | .eq => a.name ≤ b.name
  | .gt => false

/-- The free groups by descending area, then by name. -/
def solveOrder (p : Floorplan α) : List String :=
  ((p.groups.values.filter (!·.isPlaced)).mergeSort solvesBefore).map (·.name)

/-- The fault of one pair of groups in the final check, the first one in name order before the
second. -/
def pairFault? (a b : AreaGroup α) : Option (Fault α) :=
  if !a.nested b && !(a.isEmptyBox && b.isEmptyBox) && a.overlaps b then
    some (.overlap a.name b.name)
  else none

def firstFault? (p : Floorplan α) : List (AreaGroup α) → Option (Fault α)
  | [] => none
  | g :: rest =>
    if !p.contains g then some (.offChip g.name)
    else rest.findSome? (pairFault? g) <|> firstFault? p rest

/-- Every group lies on the chip and no two overlap, parents and children and pairs of empty boxes
excepted. -/
def verify (p : Floorplan α) : Except (Fault α) Unit :=
  match firstFault? p p.groups.values with
  | some f => .error f
  | none => .ok ()

theorem length_drop_lt_succ {β : Type} (l : List β) (n : Nat) :
    (l.drop n).length < l.length + 1 := by
  rw [List.length_drop]
  omega

/-- Consecutive pieces of a list, all of the given size but perhaps the last. -/
def chunks {β : Type} (size : Nat) : List β → List (List β)
  | [] => []
  | x :: rest =>
    (x :: rest.take (size - 1)) :: chunks size (rest.drop (size - 1))
termination_by l => l.length
decreasing_by exact length_drop_lt_succ rest (size - 1)

/-- What stays the same during a run. -/
structure Run (α : Type) [Scalar α] where
  traffic : TrafficTable α
  solver : Solver α
  settings : PlacementSettings α

def placeAll (p : Floorplan α) (placements : List (Placement α)) : Floorplan α :=
  placements.foldl (fun p q => p.place q.name q.x q.y q.size) p

/-- Places one batch; the models that the solver was asked are kept. -/
def Run.placeBatch (r : Run α) (p : Floorplan α) (batch : List String) (asked : List (Model α)) :
    Except (Fault α) (Floorplan α) × List (Model α) :=
  match BatchModel.build p batch r.traffic r.settings with
  | .error f => (.error f, asked)
  | .ok built =>
    let after := asked ++ [built.model]
    match r.solver asked.length built.model with
    | .error f => (.error (.solver f), after)
    | .ok a => ((built.extract a).map (placeAll p), after)

def Run.placeBatches (r : Run α) (p : Floorplan α) (batches : List (List String))
    (asked : List (Model α)) : Except (Fault α) (Floorplan α) × List (Model α) :=
  match batches with
  | [] => ((verify p).map fun _ => p, asked)
  | batch :: rest =>
    match r.placeBatch p batch asked with
    | (.error f, asked) => (.error f, asked)
    | (.ok p, asked) => r.placeBatches p rest asked

/-- Tries the batch sizes in order. -/
def Run.tryBatchSizes (r : Run α) (base : Floorplan α) (order : List String) (sizes : List Nat)
    (last : Option (Fault α)) (asked : List (Model α)) :
    Except (Fault α) (Floorplan α) × List (Model α) :=
  match sizes with
  | [] => (.error (.exhausted last), asked)
  | size :: rest =>
    match r.placeBatches base (chunks size order) asked with
    | (.ok p, asked) => (.ok p, asked)
    | (.error f, asked) => r.tryBatchSizes base order rest (some f) asked

/-- The plan that the batches start from: sizes taken over, rules applied. -/
def Run.base (r : Run α) (p : Floorplan α) (prior : Option (NameMap (AreaGroup α))) : Floorplan α :=
  let seeded := match prior with
    | some prior => (seedFromPrior p prior r.settings.areaReuseTolerance).2
    | none => p
  (applyRules seeded r.settings.rules).2

/-- Places every free group, and lists the models that the solver was asked. -/
def Run.solveAsking (r : Run α) (p : Floorplan α) (prior : Option (NameMap (AreaGroup α))) :
    Except (Fault α) (Floorplan α) × List (Model α) :=
  let base := r.base p prior
  let order := solveOrder base
  if order.isEmpty then (.ok base, [])
  else r.tryBatchSizes base order (r.settings.batchSizes.filter (0 < ·)) none []

def Run.solve (r : Run α) (p : Floorplan α) (prior : Option (NameMap (AreaGroup α))) :
    Except (Fault α) (Floorplan α) :=
  (r.solveAsking p prior).1

end HardwareLinker.Floorplan
