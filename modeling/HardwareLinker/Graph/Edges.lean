import HardwareLinker.Graph.Basic

/-!
The edges of a module graph. A module has an edge to another one when one of its matched source
ends has its partner there; the weight is the sum of the activities of those ends.
-/

namespace HardwareLinker.Graph

variable {α : Type} [Scalar α]

/-- The module that a matched source end of `owner` feeds, if it is another one. -/
def target? (g : Graph α) (owner : String) (c : Connection α) : Option String :=
  if c.matched && c.kind.isSource then
    (g.partnerOwner? c).filter (· != owner)
  else none

/-- The activities that leave a module, by end, in interface order. -/
def outflows (g : Graph α) (owner : String) (m : Module) : List (String × α) :=
  m.ends.filterMap fun c => do
    let e ← g.connection? c
    let target ← g.target? owner e
    return (target, e.activity)

/-- Adds up the weights of equal targets in the order given. -/
def addWeights (flows : List (String × α)) : NameMap α :=
  flows.foldl (fun weights (target, w) =>
    weights.insert target (match weights.find? target with
      | some sum => sum + w
      | none => w)) .empty

def edgesFrom (g : Graph α) (owner : String) (m : Module) : NameMap α :=
  addWeights (g.outflows owner m)

/-- All edges, by the names of their two modules. -/
def edges (g : Graph α) : List (String × String × α) :=
  g.modules.entries.flatMap fun (owner, m) =>
    (g.edgesFrom owner m).entries.map fun (target, w) => (owner, target, w)

/-- Zero where there is no edge. -/
def edgeWeight (g : Graph α) (a b : String) : α :=
  match g.module? a with
  | some m => ((g.edgesFrom a m).find? b).getD 0
  | none => 0

/-- The weight in both directions. -/
def traffic (g : Graph α) (a b : String) : α := g.edgeWeight a b + g.edgeWeight b a

end HardwareLinker.Graph
