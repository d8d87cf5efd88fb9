import HardwareLinker.Scalar

/-!
Maximum flow between two nodes of an undirected network, by shortest augmenting paths. A residual
capacity counts only above a small tolerance, so the loop ends whatever the arithmetic.
-/

namespace HardwareLinker

/-- A square table of capacities, row by row. -/
structure Capacities (α : Type) where
  nodes : Nat
  cells : Array α

namespace Capacities

variable {α : Type} [Scalar α]

def zero (nodes : Nat) : Capacities α := ⟨nodes, Array.replicate (nodes * nodes) 0⟩

def get (c : Capacities α) (u v : Nat) : α := c.cells.getD (u * c.nodes + v) 0

def add (c : Capacities α) (u v : Nat) (w : α) : Capacities α :=
  { c with cells := c.cells.modify (u * c.nodes + v) (· + w) }

def subtract (c : Capacities α) (u v : Nat) (w : α) : Capacities α :=
  { c with cells := c.cells.modify (u * c.nodes + v) (· - w) }

/-- The capacity between two nodes is the sum of the weights in both directions; loops and edges
out of range are left out. -/
def ofEdges (nodes : Nat) (edges : List (Nat × Nat × α)) : Capacities α :=
  edges.foldl (fun c (a, b, w) =>
    if a ≠ b ∧ a < nodes ∧ b < nodes then (c.add a b w).add b a w else c) (zero nodes)

/-- Capacities up to this much count as none. -/
def tolerance : α := 1e-9

def usable (c : Capacities α) (u v : Nat) : Bool := tolerance < c.get u v

/-- Where each node was reached from. -/
abbrev Parents := Array (Option Nat)

def reached (source : Nat) (parents : Parents) (v : Nat) : Bool :=
  v == source || (parents.getD v none).isSome

/-- Marks the unreached neighbours of a node, in ascending order, and queues them. -/
def expand (c : Capacities α) (source u : Nat) (state : Parents × List Nat) :
    Parents × List Nat :=
  let found := (List.range c.nodes).filter fun v => !reached source state.1 v && c.usable u v
  (found.foldl (fun p v => p.setIfInBounds v (some u)) state.1, state.2 ++ found)

/-- Breadth-first search; every node enters the queue at most once. -/
def searchFrom (c : Capacities α) (source : Nat) : Nat → Parents → List Nat → Parents
  | 0, parents, _ => parents
  | _, parents, [] => parents
  | fuel + 1, parents, u :: queue =>
    let (parents, queue) := c.expand source u (parents, queue)
    searchFrom c source fuel parents queue

def search (c : Capacities α) (source : Nat) : Parents :=
  c.searchFrom source c.nodes (Array.replicate c.nodes none) [source]

/-- The steps from the source to a node, last step first. -/
def pathTo (parents : Parents) (source : Nat) : Nat → Nat → List (Nat × Nat)
  | 0, _ => []
  | fuel + 1, v =>
    if v == source then []
    else match parents.getD v none with
      | some u => (u, v) :: pathTo parents source fuel u
      | none => []

/-- The least capacity on a path. -/
def bottleneck (c : Capacities α) : List (Nat × Nat) → α
  | [] => 0
  | (u, v) :: rest => rest.foldl (fun b (u, v) => Scalar.smaller b (c.get u v)) (c.get u v)

def augment (c : Capacities α) (path : List (Nat × Nat)) (amount : α) : Capacities α :=
  path.foldl (fun c (u, v) => (c.subtract u v amount).add v u amount) c

/-- The flow found and what is left of the capacities. -/
structure Flow (α : Type) where
  value : α
  residual : Capacities α

/-- Augments along shortest paths until the sink is out of reach. -/
def augmentAll (source sink : Nat) : Nat → Flow α → Flow α
  | 0, f => f
  | fuel + 1, f =>
    let parents := f.residual.search source
    if reached source parents sink then
      let path := pathTo parents source f.residual.nodes sink
      let amount := f.residual.bottleneck path
      augmentAll source sink fuel ⟨f.value + amount, f.residual.augment path amount⟩
    else f

/-- Every augmentation uses up a step of a shortest path, which bounds their number by the cube of
the number of nodes, and moves more than the tolerance, which bounds it by the capacity that leaves
the source. -/
def augmentationBound (c : Capacities α) (source : Nat) : Nat :=
  let leaving := Scalar.sum ((List.range c.nodes).map (c.get source))
  c.nodes * c.nodes * c.nodes + Scalar.toNat (leaving / tolerance) + 1

def maxFlow (c : Capacities α) (source sink : Nat) : Flow α :=
  augmentAll source sink (c.augmentationBound source) ⟨0, c⟩

/-- The nodes that the source still reaches when the flow is maximal. -/
def sourceSide (f : Flow α) (source : Nat) : List Bool :=
  let parents := f.residual.search source
  (List.range f.residual.nodes).map (reached source parents)

end Capacities
end HardwareLinker
