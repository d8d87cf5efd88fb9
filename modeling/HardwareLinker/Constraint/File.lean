import HardwareLinker.Constraint.Basic

/-!
Constraint files: their statements take effect in order, corners are resolved at the end, and groups
nest one level deep at most.
-/

namespace HardwareLinker

/-- What a constraint file declares. -/
structure ConstraintSet (α : Type) where
  chip : Option (Size α) := none
  groups : NameMap (AreaGroup α) := .empty

namespace Constraint

/-- A corner and the line that sets it. -/
structure Corner (α : Type) where
  x : α
  y : α
  line : Nat

structure Corners (α : Type) where
  lower : Option (Corner α) := none
  upper : Option (Corner α) := none

/-- What the statements read so far say. -/
structure Draft (α : Type) where
  declared : ConstraintSet α := {}
  corners : NameMap (Corners α) := .empty

variable {α : Type} [Scalar α]

namespace Draft

/-- Changes a declared group. -/
def update (d : Draft α) (name : String) (f : AreaGroup α → AreaGroup α) :
    Except StatementFault (Draft α) :=
  if d.declared.groups.contains name then
    .ok { d with declared := { d.declared with groups := d.declared.groups.modify name f } }
  else .error (.undeclared name)

def setChip (d : Draft α) (line : Nat) (size : Size α) : Except Fault (Draft α) :=
  if d.declared.chip.isSome then .error (.chipTwice line)
  else if size.width ≤ 0 || size.height ≤ 0 then .error (.statement line .chipNotPositive)
  else .ok { d with declared := { d.declared with chip := some size } }

def declare (d : Draft α) (name : String) (path : Option String) :
    Except StatementFault (Draft α) :=
  if d.declared.groups.contains name then .error (.declaredTwice name)
  else
    let group : AreaGroup α := { name, sourcePath := path, area := 0 }
    .ok { d with declared := { d.declared with groups := d.declared.groups.insert name group } }

/-- The children of a group are in name order. -/
def addChild (child : String) (g : AreaGroup α) : AreaGroup α :=
  { g with children := (g.children ++ [child]).mergeSort (· ≤ ·) }

def nest (d : Draft α) (line : Nat) (child parent : String) : Except Fault (Draft α) :=
  let groups := d.declared.groups
  match groups.find? child with
  | none => .error (.statement line (.undeclared child))
  | some g =>
    if !groups.contains parent then .error (.statement line (.undeclared parent))
    else if child == parent then .error (.insideItself child)
    else
      match g.parent with
      | some existing => .error (.nestedTwice child existing)
      | none =>
        let groups := groups.modify child fun g => { g with parent := some parent }
        let groups := groups.modify parent (addChild child)
        .ok { d with declared := { d.declared with groups } }

def setCorner (d : Draft α) (name : String) (upper : Bool) (c : Corner α) :
    Except StatementFault (Draft α) :=
  if d.declared.groups.contains name then
    let old := (d.corners.find? name).getD {}
    let new := if upper then { old with upper := some c } else { old with lower := some c }
    .ok { d with corners := d.corners.insert name new }
  else .error (.undeclared name)

def onLine {β : Type} (line : Nat) : Except StatementFault β → Except Fault β
  | .ok b => .ok b
  | .error f => .error (.statement line f)

def apply (d : Draft α) (line : Nat) : Statement α → Except Fault (Draft α)
  | .chip size => d.setChip line size
  | .declare name path => onLine line (d.declare name path)
  | .nest child parent => d.nest line child parent
  | .locate name x y => onLine line (d.update name fun g => { g with x := some x, y := some y })
  | .size name size => onLine line (d.update name fun g => { g with dimension := .fixed size })
  | .area name area => onLine line (d.update name fun g => { g with area })
  | .corner name upper x y => onLine line (d.setCorner name upper ⟨x, y, line⟩)
  | .attribute name key value =>
    onLine line (d.update name fun g => { g with attributes := g.attributes.insert key value })

def read (d : Draft α) (s : Nat × List Char) : Except Fault (Draft α) := do
  d.apply s.1 (← onLine s.1 (Statement.ofList s.2))

/-- Places the group that two corners describe. -/
def resolve (set : ConstraintSet α) (e : String × Corners α) : Except Fault (ConstraintSet α) :=
  match e.2.lower, e.2.upper with
  | some p, some q =>
    if q.x ≤ p.x || q.y ≤ p.y then .error (.statement q.line (.cornersSwapped e.1))
    else
      let box (g : AreaGroup α) :=
        g.place ((p.x + q.x) / 2.0) ((p.y + q.y) / 2.0) ⟨q.x - p.x, q.y - p.y⟩
      .ok { set with groups := set.groups.modify e.1 box }
  | some c, none | none, some c => .error (.statement c.line (.cornerMissing e.1))
  | none, none => .ok set

end Draft

/-- The first group that is nested and has children. -/
def nestedDeep? (set : ConstraintSet α) : Option Fault :=
  set.groups.values.findSome? fun g =>
    match g.parent with
    | some parent => if g.children.isEmpty then none else some (.nestedDeep g.name parent)
    | none => none

end Constraint

namespace ConstraintSet

open Constraint

variable {α : Type} [Scalar α]

def ofText (source : String) : Except Fault (ConstraintSet α) := do
  let draft : Draft α ← (statements source.toList).foldlM Draft.read {}
  let set ← draft.corners.entries.foldlM Draft.resolve draft.declared
  match nestedDeep? set with
  | some fault => throw fault
  | none => return set

end ConstraintSet
end HardwareLinker
