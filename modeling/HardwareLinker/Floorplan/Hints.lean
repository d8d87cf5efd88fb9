import HardwareLinker.Floorplan.Basic
import HardwareLinker.Tree.Build

/-!
Guidance for tree building from a placed floorplan. A split is cheap if it cuts little traffic,
keeps families together, breaks few chains and is balanced. The splits tried are those along the
sorted coordinates of either axis; members without a place join the side that they talk to most.
-/

namespace HardwareLinker.Floorplan

variable {α : Type} [Scalar α]

structure Guide (α : Type) where
  plan : Floorplan α
  parentChildWeight : α
  bufferDistance : α
  /-- The carriers of each chain in threading order. -/
  chains : NameMap (List String) := .empty

namespace Guide

/-- The side of a member; of a repeated one, the last. -/
def sideOf? (members : List String) (labels : List Nat) (name : String) : Option Nat :=
  ((members.zip labels).reverse.find? fun e => e.1 == name).map Prod.snd

/-- Neighbours on a closed ring that differ. -/
def changes (ring : List Nat) : Nat :=
  if ring.length < 2 then 0
  else (ring.zip (ring.tail ++ ring.take 1)).countP fun (a, b) => a != b

/-- The chain segments among the members whose ends land on different sides. -/
def brokenSegments (h : Guide α) (members : List String) (labels : List Nat) : Nat :=
  h.chains.values.foldl (fun total carriers =>
    total + changes (carriers.filterMap (sideOf? members labels))) 0

def centre? (h : Guide α) (name : String) : Option (α × α) :=
  (h.plan.groups.find? name).bind AreaGroup.centre?

def related (h : Guide α) (a b : String) : Bool :=
  let parent? (name : String) := (h.plan.groups.find? name).bind (·.parent)
  parent? a == some b || parent? b == some a

/-- The label of a position. -/
def label (labels : List Nat) (i : Nat) : Nat := labels.getD i 0

/-- The pairs of related members that the labels part. -/
def partedFamilies (h : Guide α) (members : List String) (labels : List Nat) : Nat :=
  (orderedPairs (members.zip labels)).countP fun (a, b) => a.2 != b.2 && h.related a.1 b.1

def addTimes (w : α) : Nat → α
  | 0 => 0
  | n + 1 => addTimes w n + w

/-- The mean traffic, the unit that imbalance and broken chains are counted in. -/
def unit (traffic : List (Nat × Nat × α)) : α :=
  if traffic.isEmpty then 1
  else Scalar.sum (traffic.map fun t => t.2.2) / Scalar.ofNat traffic.length

def cost (h : Guide α) (members : List String) (labels : List Nat)
    (traffic : List (Nat × Nat × α)) : α :=
  let cross := Scalar.sum ((traffic.filter fun t =>
    label labels t.1 != label labels t.2.1).map fun t => t.2.2)
  let families := addTimes h.parentChildWeight (h.partedFamilies members labels)
  let ones : α := Scalar.ofNat (labels.count 1)
  let imbalance := Scalar.abs (Scalar.ofNat labels.length - 2.0 * ones)
  let broken : α := Scalar.ofNat (h.brokenSegments members labels)
  cross + families + unit traffic * (imbalance + broken)

/-- The traffic of a member with those that have the given label. -/
def pull (labels : List (Option Nat)) (traffic : List (Nat × Nat × α)) (i side : Nat) : α :=
  traffic.foldl (fun sum (a, b, w) =>
    let other := if a == i then some b else if b == i then some a else none
    if other.bind (labels.getD · none) == some side then sum + w else sum) 0

/-- Members without a label join the side that they talk to most, side zero on a tie. -/
def assignUnplaced (labels : List (Option Nat)) (traffic : List (Nat × Nat × α)) : List Nat :=
  labels.zipIdx.map fun (l, i) =>
    l.getD (if pull labels traffic i 0 < pull labels traffic i 1 then 1 else 0)

/-- A member's position with its place, ordered along one axis, then the other. -/
def before (swap : Bool) (a b : Nat × α × α) : Bool :=
  let along (p : Nat × α × α) : α × α := if swap then (p.2.2, p.2.1) else p.2
  let (a1, a2) := along a
  let (b1, b2) := along b
  (((Scalar.compareTotal a1 b1).then (Scalar.compareTotal a2 b2)).then (compare a.1 b.1)) != .gt

/-- The placed members along one axis. -/
def along (swap : Bool) (placed : List (Nat × α × α)) : List Nat :=
  (placed.mergeSort (before swap)).map Prod.fst

/-- The split after the first `k` members of an order. -/
def splitAfter (size : Nat) (order : List Nat) (traffic : List (Nat × Nat × α)) (k : Nat) :
    List Nat :=
  let labels := order.zipIdx.foldl (fun labels (i, pos) =>
    labels.set i (some (if k ≤ pos then 1 else 0))) (List.replicate size none)
  assignUnplaced labels traffic

/-- Every split that is tried, axis by axis. -/
def candidates (size : Nat) (placed : List (Nat × α × α)) (traffic : List (Nat × Nat × α)) :
    List (List Nat) :=
  [false, true].flatMap fun swap =>
    let order := along swap placed
    (List.range' 1 (order.length - 1)).map (splitAfter size order traffic)

/-- The cheaper of two splits; within a billionth, the one with the lesser labels. -/
def pick (best : Option (α × List Nat)) (split : α × List Nat) : Option (α × List Nat) :=
  match best with
  | none => some split
  | some b =>
    if split.1 < b.1 - 1e-9 || (Scalar.abs (split.1 - b.1) ≤ 1e-9 && split.2 < b.2) then some split
    else some b

def placedMembers (h : Guide α) (members : List String) : List (Nat × α × α) :=
  members.zipIdx.filterMap fun (name, i) => (h.centre? name).map fun c => (i, c)

/-- No opinion where fewer than two members are placed. -/
def bisect (h : Guide α) (members : List String) (traffic : List (Nat × Nat × α)) :
    Option (List Nat) :=
  let placed := h.placedMembers members
  if placed.length < 2 then none
  else
    (((candidates members.length placed traffic).map fun labels =>
      (h.cost members labels traffic, labels)).foldl pick none).map Prod.snd

/-- The mean centre of those that are placed. -/
def centreOf? (h : Guide α) (names : List String) : Option (α × α) :=
  let points := names.filterMap h.centre?
  if points.isEmpty then none
  else
    let n := Scalar.ofNat points.length
    some (Scalar.sum (points.map Prod.fst) / n, Scalar.sum (points.map Prod.snd) / n)

/-- One buffer for each stretch of the buffer distance between the two centres, to the nearest
number. -/
def bufferBudget (h : Guide α) (left right : List String) : Nat :=
  if h.bufferDistance ≤ 0 then 0
  else
    match h.centreOf? left, h.centreOf? right with
    | some (x, y), some (x', y') =>
      Scalar.toNat (Scalar.round
        ((Scalar.abs (x - x') + Scalar.abs (y - y')) / h.bufferDistance))
    | _, _ => 0

def hints (h : Guide α) : MergeTree.Hints α := ⟨h.bisect, h.bufferBudget⟩

end Guide
end HardwareLinker.Floorplan
