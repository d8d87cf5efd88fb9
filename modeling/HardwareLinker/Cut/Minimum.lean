import HardwareLinker.Cut.Flow
import HardwareLinker.Pairs

/-!
The cheapest cut of a network into two sides, over all pairs of nodes. Node zero is always on side
zero; of cuts of one price the one with the least labels wins.
-/

namespace HardwareLinker

structure Cut (α : Type) where
  value : α
  /-- The side of each node, zero or one. -/
  labels : List Nat

namespace Cut

variable {α : Type} [Scalar α]

/-- Side labels from the nodes on the source side, turned over if node zero is not among them. -/
def labelsOf (sourceSide : List Bool) : List Nat :=
  let labels := sourceSide.map fun on => if on then 0 else 1
  if labels.head? == some 1 then labels.map (1 - ·) else labels

def between (c : Capacities α) (source sink : Nat) : Cut α :=
  let flow := c.maxFlow source sink
  ⟨flow.value, labelsOf (Capacities.sourceSide flow source)⟩

/-- The first cut replaces the second one. -/
def better (a b : Cut α) : Bool :=
  a.value < b.value - Capacities.tolerance ||
    (Scalar.abs (a.value - b.value) ≤ Capacities.tolerance && a.labels < b.labels)

def pick (best : Option (Cut α)) (cut : Cut α) : Option (Cut α) :=
  match best with
  | none => some cut
  | some b => some (if cut.better b then cut else b)

/-- None for fewer than two nodes. -/
def minimum? (nodes : Nat) (edges : List (Nat × Nat × α)) : Option (Cut α) :=
  let capacities := Capacities.ofEdges nodes edges
  (orderedPairs (List.range nodes)).foldl
    (fun best (s, t) => pick best (between capacities s t)) none

end Cut
end HardwareLinker
