import HardwareLinker.Constraint.File
import HardwareLinker.Floorplan.Fault
import HardwareLinker.Settings

/-!
From a constraint file and a table of areas to a floorplan. Entries of the table that no declaration
covers become groups of their own; areas come from the file, then the table, then the children; and
groups without a size get sizes to choose from.
-/

namespace HardwareLinker.Floorplan

variable {α : Type} [Scalar α]

def sameSize (a b : Size α) : Bool :=
  a.width ≤ b.width && b.width ≤ a.width && a.height ≤ b.height && b.height ≤ a.height

/-- The size of a ratio: the width is rounded up, then the height. -/
def aspectOption (area ratio : α) : Size α :=
  let width := Scalar.ceil (Scalar.sqrt (area * ratio))
  ⟨width, Scalar.ceil (area / width)⟩

/-- One size a ratio; of equal ones the first is kept. -/
def aspectOptions (area : α) (ratios : List α) : List (Size α) :=
  if area ≤ 0 then []
  else ratios.foldl (fun sizes r =>
    let s := aspectOption area r
    if sizes.any (sameSize · s) then sizes else sizes ++ [s]) []

/-- The groups declared, and one for each entry of the table that names neither a declared group
nor a declared source path. -/
def withTableGroups (declared : NameMap (AreaGroup α)) (areas : NameMap α) :
    NameMap (AreaGroup α) :=
  let paths := declared.values.filterMap (·.sourcePath)
  areas.entries.foldl (fun groups (name, area) =>
    if declared.contains name || paths.contains name then groups
    else groups.insert name { name, area }) declared

/-- A group without an area takes the entry for its name, else the one for its source path. -/
def assignArea (areas : NameMap α) (g : AreaGroup α) : AreaGroup α :=
  if 0 < g.area then g
  else
    match areas.find? g.name <|> g.sourcePath.bind areas.find? with
    | some area => { g with area }
    | none => g

/-- A group that still has no area takes the sum of its children. -/
def sumChildren (groups : NameMap (AreaGroup α)) (g : AreaGroup α) : AreaGroup α :=
  if !g.children.isEmpty && g.area ≤ 0 then
    { g with area := Scalar.sum ((g.children.filterMap groups.find?).map (·.area)) }
  else g

def offerSizes (ratios : List α) (g : AreaGroup α) : AreaGroup α :=
  match g.dimension, aspectOptions g.area ratios with
  | .unset, s :: sizes => { g with dimension := .options (s :: sizes) }
  | _, _ => g

def elaborate (set : ConstraintSet α) (areas : NameMap α) (settings : PlacementSettings α) :
    Except (Fault α) (Floorplan α) :=
  match set.chip with
  | none => .error .noChip
  | some chip =>
    let groups := (withTableGroups set.groups areas).mapValues fun _ => assignArea areas
    let groups := groups.mapValues fun _ => sumChildren groups
    .ok ⟨chip, groups.mapValues fun _ => offerSizes settings.aspectRatios⟩

end HardwareLinker.Floorplan
