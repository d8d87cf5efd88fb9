import HardwareLinker.Floorplan.Fault
import HardwareLinker.Pairs
import HardwareLinker.Settings
import HardwareLinker.Traffic

/-!
The integer model that places one batch of groups around those already placed. Half the extents of a
free group are linear in the binaries that select its size; a pair of groups is kept apart by two
binaries that name a side; a nested group stays inside its parent; and the objective adds up
weighted distances between centres.
-/

namespace HardwareLinker.Floorplan

open Milp

/-- A linear expression over the variables of a model. -/
structure Linear (α : Type) where
  terms : Terms α
  constant : α

namespace Linear

variable {α : Type} [Scalar α]

def ofConstant (c : α) : Linear α := ⟨[], c⟩

def ofVariable (v : Nat) : Linear α := ⟨[(v, 1)], 0⟩

/-- The first expression and a multiple of the second. -/
def plus (a : Linear α) (k : α) (b : Linear α) : Linear α :=
  ⟨a.terms ++ b.terms.map (fun (v, c) => (v, c * k)), a.constant + k * b.constant⟩

def plusVariable (a : Linear α) (k : α) (v : Nat) : Linear α :=
  { a with terms := a.terms ++ [(v, k)] }

/-- The expression bounded; its constant moves to the other side. -/
def row (a : Linear α) (name : String) (sense : Sense) (bound : α) : Row α :=
  ⟨name, a.terms, sense, bound - a.constant⟩

end Linear

/-- What the model decides about a free group. -/
structure Choice (α : Type) where
  x : Nat
  y : Nat
  /-- The binary that selects each size. -/
  sizes : List (Nat × Size α)

/-- A group as the model sees it. -/
structure Geometry (α : Type) where
  name : String
  emptyBox : Bool
  parent : Option String
  centreX : Linear α
  centreY : Linear α
  halfWidth : Linear α
  halfHeight : Linear α
  /-- Nothing for a group that is already placed. -/
  choice : Option (Choice α)

/-- A part of a model. -/
structure Block (α : Type) where
  vars : List (Variable α) := []
  rows : List (Row α) := []
  objective : Terms α := []

variable {α : Type} [Scalar α]

namespace Block

def append (a b : Block α) : Block α :=
  ⟨a.vars ++ b.vars, a.rows ++ b.rows, a.objective ++ b.objective⟩

end Block

def binary (name : String) : Variable α := ⟨name, true, 0, some 1⟩

def continuous (name : String) (lower upper : α) : Variable α := ⟨name, false, lower, some upper⟩

/-- Half the extent that the selected size has. -/
def halfExtent (extent : Size α → α) (sizes : List (Nat × Size α)) : Linear α :=
  sizes.foldl (fun a (v, s) => a.plusVariable (extent s / 2.0) v) (.ofConstant 0)

/-- A free group: the binaries of its sizes, then its centre, from variable `first` on. -/
def freeGroup (chip : Size α) (i first : Nat) (g : AreaGroup α) : Geometry α × Block α :=
  let choices := g.dimension.choices
  let sizes := choices.zipIdx.map fun (s, k) => (first + k, s)
  let x := first + choices.length
  let y := x + 1
  let halfWidth := halfExtent (·.width) sizes
  let halfHeight := halfExtent (·.height) sizes
  let centreX : Linear α := .ofVariable x
  let centreY : Linear α := .ofVariable y
  let range (fixed : Option α) (limit : α) : α × α := match fixed with
    | some c => (c, c)
    | none => (0, limit)
  let (lowX, highX) := range g.x chip.width
  let (lowY, highY) := range g.y chip.height
  let selectors := choices.zipIdx.map fun (_, k) => binary s!"s_{i}_{k}"
  let pick : Row α := ⟨s!"pick_{i}", sizes.map fun (v, _) => (v, 1), .equal, 1⟩
  ({ name := g.name, emptyBox := g.isEmptyBox, parent := g.parent, centreX, centreY, halfWidth,
     halfHeight, choice := some ⟨x, y, sizes⟩ },
   { vars := selectors
      ++ [continuous s!"x_{i}" lowX highX, continuous s!"y_{i}" lowY highY]
     rows := [pick,
      (centreX.plus (-1) halfWidth).row s!"left_{i}" .atLeast 0,
      (centreX.plus 1 halfWidth).row s!"right_{i}" .atMost chip.width,
      (centreY.plus (-1) halfHeight).row s!"bottom_{i}" .atLeast 0,
      (centreY.plus 1 halfHeight).row s!"top_{i}" .atMost chip.height] })

/-- A placed group contributes constants only. -/
def placedGroup? (g : AreaGroup α) : Option (Geometry α) := do
  let (x, y) ← g.centre?
  let s ← g.dimension.fixed?
  return {
    name := g.name, emptyBox := g.isEmptyBox, parent := g.parent
    centreX := .ofConstant x, centreY := .ofConstant y
    halfWidth := .ofConstant (s.width / 2.0), halfHeight := .ofConstant (s.height / 2.0)
    choice := none }

/-- How far the first interval reaches past the start of the second one. -/
def reach (centre half centre' half' : Linear α) : Linear α :=
  ((centre.plus 1 half).plus (-1) centre').plus 1 half'

/-- One of the two groups is left of or below the other one; two binaries name which holds. -/
def separate (tag : String) (first : Nat) (a b : Geometry α) (far : α) : Block α :=
  let p := first
  let q := first + 1
  let rightOf := reach a.centreX a.halfWidth b.centreX b.halfWidth
  let leftOf := reach b.centreX b.halfWidth a.centreX a.halfWidth
  let above := reach a.centreY a.halfHeight b.centreY b.halfHeight
  let below := reach b.centreY b.halfHeight a.centreY a.halfHeight
  { vars := [binary s!"p_{tag}", binary s!"q_{tag}"]
    rows := [
      ((rightOf.plusVariable (-far) p).plusVariable (-far) q).row s!"sep0_{tag}" .atMost 0,
      ((leftOf.plusVariable far p).plusVariable (-far) q).row s!"sep1_{tag}" .atMost far,
      ((above.plusVariable (-far) p).plusVariable far q).row s!"sep2_{tag}" .atMost far,
      ((below.plusVariable far p).plusVariable far q).row s!"sep3_{tag}" .atMost (2.0 * far)] }

/-- The child lies inside its parent. -/
def containChild (tag : String) (parent child : Geometry α) : Block α :=
  let low (c h c' h' : Linear α) := ((c.plus (-1) h).plus (-1) c').plus 1 h'
  let high (c h c' h' : Linear α) := ((c.plus 1 h).plus (-1) c').plus (-1) h'
  { rows := [
      (low child.centreX child.halfWidth parent.centreX parent.halfWidth).row
        s!"in0_{tag}" .atLeast 0,
      (high child.centreX child.halfWidth parent.centreX parent.halfWidth).row
        s!"in1_{tag}" .atMost 0,
      (low child.centreY child.halfHeight parent.centreY parent.halfHeight).row
        s!"in2_{tag}" .atLeast 0,
      (high child.centreY child.halfHeight parent.centreY parent.halfHeight).row
        s!"in3_{tag}" .atMost 0] }

/-- The weighted distance of two centres, at least the difference in either direction. -/
def distance (tag : String) (first : Nat) (a b : Geometry α) (weight far : α) : Block α :=
  let dx : Linear α := .ofVariable first
  let dy : Linear α := .ofVariable (first + 1)
  let differenceX := a.centreX.plus (-1) b.centreX
  let differenceY := a.centreY.plus (-1) b.centreY
  { vars := [continuous s!"dx_{tag}" 0 far, continuous s!"dy_{tag}" 0 far]
    rows := [
      (dx.plus (-1) differenceX).row s!"dxp_{tag}" .atLeast 0,
      (dx.plus 1 differenceX).row s!"dxn_{tag}" .atLeast 0,
      (dy.plus (-1) differenceY).row s!"dyp_{tag}" .atLeast 0,
      (dy.plus 1 differenceY).row s!"dyn_{tag}" .atLeast 0]
    objective := [(first, weight), (first + 1, weight)] }

/-- What the model says about two groups, a free one among them. -/
def relate (far : α) (traffic : TrafficTable α) (settings : PlacementSettings α) (first : Nat)
    (a b : Geometry α × Nat) : Block α :=
  let tag := s!"{a.2}_{b.2}"
  if (a.1.choice.isNone && b.1.choice.isNone) || (a.1.emptyBox && b.1.emptyBox) then {}
  else
    let (block, weight) :=
      if a.1.parent == some b.1.name then (containChild tag b.1 a.1, settings.parentChildWeight)
      else if b.1.parent == some a.1.name then
        (containChild tag a.1 b.1, settings.parentChildWeight)
      else (separate tag first a.1 b.1 far,
        settings.trafficWeight * traffic.traffic a.1.name b.1.name)
    if 0 < weight then
      block.append (distance tag (first + block.vars.length) a.1 b.1 weight far)
    else block

/-- A model together with what is needed to read placements from an assignment. -/
structure BatchModel (α : Type) where
  model : Model α
  geometries : List (Geometry α)

/-- A group as the model places it. -/
structure Placement (α : Type) where
  name : String
  x : α
  y : α
  size : Size α

def addBlock (m : Model α) (b : Block α) : Model α :=
  ⟨m.vars ++ b.vars.toArray, m.rows ++ b.rows, m.objective ++ b.objective⟩

def hasPositiveSizes (g : AreaGroup α) : Bool :=
  !g.dimension.choices.isEmpty &&
    !g.dimension.choices.any fun s => s.width ≤ 0 || s.height ≤ 0

namespace BatchModel

/-- Adds a group of the batch. -/
def addFree (p : Floorplan α) (b : BatchModel α) (name : String) :
    Except (Fault α) (BatchModel α) :=
  match p.groups.find? name with
  | none => .error (.unknownGroup name)
  | some g =>
    if hasPositiveSizes g then
      let (geometry, block) := freeGroup p.chip b.geometries.length b.model.vars.size g
      .ok ⟨addBlock b.model block, b.geometries ++ [geometry]⟩
    else .error (.noPositiveSize g.name g.area)

/-- The placed groups that are not in the batch, in name order. -/
def surroundings (p : Floorplan α) (batch : List String) : List (Geometry α) :=
  (p.groups.values.filter fun g => !batch.contains g.name).filterMap placedGroup?

def build (p : Floorplan α) (batch : List String) (traffic : TrafficTable α)
    (settings : PlacementSettings α) : Except (Fault α) (BatchModel α) := do
  let free ← batch.foldlM (addFree p) ⟨.empty, []⟩
  let geometries := free.geometries ++ surroundings p batch
  let far := p.chip.width + p.chip.height
  let model := (orderedPairs geometries.zipIdx).foldl (fun m (a, b) =>
    addBlock m (relate far traffic settings m.vars.size a b)) free.model
  return ⟨model, geometries⟩

/-- The last of the sizes whose selector has the greatest value. -/
def selected? (sizes : List (Nat × Size α)) (a : Assignment α) : Option (Size α) :=
  (sizes.foldl (fun best s => match best with
    | none => some s
    | some b =>
      if Scalar.compareTotal (a.value b.1) (a.value s.1) == .gt then some b else some s) none).map
    Prod.snd

/-- Removes noise below a millionth. -/
def snap (v : α) : α := Scalar.round (v * 1e6) / 1e6

def readPlacement (a : Assignment α) (name : String) (c : Choice α) :
    Except (Fault α) (Placement α) :=
  match selected? c.sizes a with
  | none => .error (.noSize name)
  | some size =>
    if size.width ≤ 0 || size.height ≤ 0 then .error (.nonPositiveChoice name size)
    else .ok ⟨name, snap (a.value c.x), snap (a.value c.y), size⟩

/-- The placements of the batch; an assignment that misses the model is refused. -/
def extract (b : BatchModel α) (a : Assignment α) : Except (Fault α) (List (Placement α)) :=
  let violation := b.model.violation a
  if 1e-3 < violation then .error (.violation violation)
  else
    (b.geometries.filterMap fun g => g.choice.map fun c => (g.name, c)).mapM fun (name, c) =>
      readPlacement a name c

end BatchModel
end HardwareLinker.Floorplan
