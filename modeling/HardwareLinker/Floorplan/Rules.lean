import HardwareLinker.Floorplan.Basic
import HardwareLinker.Settings

/-!
Placement rules, applied before the solver runs: a group is put flush against a placed anchor. A
rule that cannot be followed is skipped.
-/

namespace HardwareLinker.Floorplan

variable {α : Type} [Scalar α]

/-- Where a group of the given area goes. A neighbour to the left or right takes the height of the
anchor, one above or below its width; the other extent is rounded up. -/
def besideAnchor (b : Bounds α) (area : α) (side : Side) : α × α × Size α :=
  let height := b.top - b.bottom
  let width := b.right - b.left
  match side with
  | .left =>
    let w := Scalar.ceil (area / height)
    (b.left - w / 2.0, (b.bottom + b.top) / 2.0, ⟨w, height⟩)
  | .right =>
    let w := Scalar.ceil (area / height)
    (b.right + w / 2.0, (b.bottom + b.top) / 2.0, ⟨w, height⟩)
  | .above =>
    let h := Scalar.ceil (area / width)
    ((b.left + b.right) / 2.0, b.top + h / 2.0, ⟨width, h⟩)
  | .below =>
    let h := Scalar.ceil (area / width)
    ((b.left + b.right) / 2.0, b.bottom - h / 2.0, ⟨width, h⟩)

/-- The candidate would hit the other group. -/
def collides (candidate other : AreaGroup α) : Bool :=
  other.name != candidate.name && !(other.isEmptyBox && candidate.isEmptyBox) &&
    candidate.parent != some other.name && candidate.overlaps other

/-- The group as a rule places it, if the rule can be followed. -/
def ruled? (p : Floorplan α) (rule : PlacementRule) : Option (AreaGroup α) := do
  let anchor ← p.groups.find? rule.anchor
  let bounds ← anchor.bounds?
  let group ← p.groups.find? rule.group
  if group.isPlaced || group.area ≤ 0 then none
  else
    let (x, y, size) := besideAnchor bounds group.area rule.side
    let candidate := group.place x y size
    if p.contains candidate && !p.groups.values.any (collides candidate) then some candidate
    else none

def applyRule (done : List String × Floorplan α) (rule : PlacementRule) :
    List String × Floorplan α :=
  match ruled? done.2 rule with
  | some g => (done.1 ++ [rule.group], { done.2 with groups := done.2.groups.insert g.name g })
  | none => done

/-- The names of the groups placed, in the order of their rules, and the plan afterwards. -/
def applyRules (p : Floorplan α) (rules : List PlacementRule) : List String × Floorplan α :=
  rules.foldl applyRule ([], p)

end HardwareLinker.Floorplan
