import HardwareLinker.Graph.Edges

/-!
Traffic between pairs of modules, both directions added up.
-/

namespace HardwareLinker

/-- Weights by the lesser name, then by the greater one. -/
structure TrafficTable (α : Type) where
  weights : NameMap (NameMap α)

namespace TrafficTable

variable {α : Type} [Scalar α]

def empty : TrafficTable α := ⟨.empty⟩

/-- The two names in ascending order. -/
def key (a b : String) : String × String := if a ≤ b then (a, b) else (b, a)

/-- Traffic of a module with itself is not counted. -/
def add (t : TrafficTable α) (a b : String) (weight : α) : TrafficTable α :=
  if a = b then t
  else
    let (a, b) := key a b
    let row := (t.weights.find? a).getD .empty
    ⟨t.weights.insert a (row.insert b ((row.find? b).getD 0 + weight))⟩

def traffic (t : TrafficTable α) (a b : String) : α :=
  let (a, b) := key a b
  ((t.weights.find? a).bind (·.find? b)).getD 0

/-- All pairs in name order. -/
def pairs (t : TrafficTable α) : List (String × String × α) :=
  t.weights.entries.flatMap fun (a, row) => row.entries.map fun (b, w) => (a, b, w)

def ofGraph (g : Graph α) : TrafficTable α :=
  g.edges.foldl (fun t (a, b, w) => t.add a b w) .empty

end TrafficTable
end HardwareLinker
