import HardwareLinker.NameMap
import HardwareLinker.Scalar

/-!
Area groups, the rectangles reserved for modules, and the chip that they lie on. A group is placed
once its centre and a single size are known.
-/

namespace HardwareLinker

structure Size (α : Type) where
  width : α
  height : α
deriving DecidableEq

inductive Dimension (α : Type) where
  | unset
  | fixed (size : Size α)
  /-- Sizes to choose from. -/
  | options (sizes : List (Size α))
deriving DecidableEq

namespace Dimension

variable {α : Type}

def fixed? : Dimension α → Option (Size α)
  | fixed s => some s
  | _ => none

/-- The sizes that a solver may choose from. -/
def choices : Dimension α → List (Size α)
  | unset => []
  | fixed s => [s]
  | options sizes => sizes

end Dimension

structure AreaGroup (α : Type) where
  name : String
  /-- The module instance that the group holds, if declared. -/
  sourcePath : Option String := none
  area : α
  /-- Horizontal position of the centre. -/
  x : Option α := none
  /-- Vertical position of the centre. -/
  y : Option α := none
  dimension : Dimension α := .unset
  parent : Option String := none
  children : List String := []
  attributes : NameMap String := .empty
deriving DecidableEq

/-- A rectangle by its least and greatest coordinates. -/
structure Bounds (α : Type) where
  left : α
  bottom : α
  right : α
  top : α

/-- Distances up to this much are noise. -/
def geometryTolerance {α : Type} [Scalar α] : α := 1e-6

namespace AreaGroup

variable {α : Type} [Scalar α]

/-- The word, in any case of its ASCII letters. -/
def isTrue (s : String) : Bool := s.toList.map Char.toLower == "true".toList

/-- An empty box may overlap other empty boxes. -/
def isEmptyBox (g : AreaGroup α) : Bool := (g.attributes.find? "EMPTYBOX").any isTrue

def centre? (g : AreaGroup α) : Option (α × α) := do return (← g.x, ← g.y)

def isPlaced (g : AreaGroup α) : Bool :=
  g.x.isSome && g.y.isSome && g.dimension.fixed?.isSome

/-- The rectangle of a placed group. -/
def bounds? (g : AreaGroup α) : Option (Bounds α) := do
  let (x, y) ← g.centre?
  let s ← g.dimension.fixed?
  return ⟨x - s.width / 2.0, y - s.height / 2.0, x + s.width / 2.0, y + s.height / 2.0⟩

def place (g : AreaGroup α) (x y : α) (size : Size α) : AreaGroup α :=
  { g with x := some x, y := some y, dimension := .fixed size }

/-- One group is declared inside the other. -/
def nested (a b : AreaGroup α) : Bool := a.parent == some b.name || b.parent == some a.name

def boundsOverlap (a b : Bounds α) : Bool :=
  a.left < b.right - geometryTolerance && b.left < a.right - geometryTolerance &&
    a.bottom < b.top - geometryTolerance && b.bottom < a.top - geometryTolerance

/-- The rectangles of two placed groups share some area. -/
def overlaps (a b : AreaGroup α) : Bool :=
  match a.bounds?, b.bounds? with
  | some p, some q => boundsOverlap p q
  | _, _ => false

end AreaGroup

structure Floorplan (α : Type) where
  /-- The chip lies between the origin and this corner. -/
  chip : Size α
  groups : NameMap (AreaGroup α)
deriving DecidableEq

namespace Floorplan

variable {α : Type} [Scalar α]

def empty : Floorplan α := ⟨⟨0, 0⟩, .empty⟩

/-- The chip of groups alone is the box from the origin that holds all placed ones. -/
def ofGroups (groups : NameMap (AreaGroup α)) : Floorplan α :=
  let boxes := groups.values.filterMap AreaGroup.bounds?
  { chip := boxes.foldl (fun chip b =>
      ⟨Scalar.greater chip.width b.right, Scalar.greater chip.height b.top⟩) ⟨0, 0⟩
    groups }

def boundsInside (chip : Size α) (b : Bounds α) : Bool :=
  -geometryTolerance ≤ b.left && -geometryTolerance ≤ b.bottom &&
    b.right ≤ chip.width + geometryTolerance && b.top ≤ chip.height + geometryTolerance

/-- A placed group lies on the chip. -/
def contains (p : Floorplan α) (g : AreaGroup α) : Bool := g.bounds?.any (boundsInside p.chip)

/-- Gives groups without a source path the path of their name, and says how many got one. -/
def annotate (p : Floorplan α) (paths : NameMap String) : Nat × Floorplan α :=
  let path? (g : AreaGroup α) := if g.sourcePath.isNone then paths.find? g.name else none
  (p.groups.values.countP fun g => (path? g).isSome,
    { p with groups := p.groups.mapValues fun _ g =>
        match path? g with
        | some path => { g with sourcePath := some path }
        | none => g })

def place (p : Floorplan α) (name : String) (x y : α) (size : Size α) : Floorplan α :=
  { p with groups := p.groups.modify name fun g => g.place x y size }

end Floorplan
end HardwareLinker
