import HardwareLinker.NameMap
import HardwareLinker.Connection.Record

/-!
The module graph: modules in name order, each listing its connection ends by handle, and one table
of all ends. Handles are never reused, and edges and open ends are read off the table, not stored.
-/

namespace HardwareLinker

/-- A module of one graph, by order of creation. -/
structure ModuleId where
  slot : Nat
deriving DecidableEq, Repr

/-- A separately compiled module; its name is the key under which a graph holds it. -/
structure Module where
  id : ModuleId
  kind : String
  /-- Channel ends, by name. -/
  channels : List ConnectionId
  /-- Chain ends, routing ends included, by name. -/
  chains : List ConnectionId
  attributes : NameMap String
  /-- Paths of compiled artifacts, by kind. -/
  artifacts : NameMap (List String)
deriving DecidableEq

namespace Module

def new (id : ModuleId) (kind : String) : Module :=
  { id, kind, channels := [], chains := [], attributes := .empty, artifacts := .empty }

/-- Every end of the interface, channels first. -/
def ends (m : Module) : List ConnectionId := m.channels ++ m.chains

def addArtifact (m : Module) (kind path : String) : Module :=
  { m with artifacts := m.artifacts.append kind path }

end Module

structure Graph (α : Type) where
  modules : NameMap Module
  connections : Array (Connection α)

namespace Graph

/-- Why a graph is refused. -/
inductive Fault where
  | duplicateModule (name : String)
  | typeMismatch (conflict : Connection.TypeConflict)
  | malformedRecord (line : Nat) (fault : Connection.RecordFault)
  | unmatched (count : Nat)
deriving DecidableEq, Repr

def Fault.message : Fault → String
  | duplicateModule name => s!"module `{name}` is already part of the graph"
  | typeMismatch conflict => conflict.message
  | malformedRecord line fault => s!"malformed connection record on line {line}: {fault.message}"
  | unmatched count => s!"{count} required connection(s) have no partner"

variable {α : Type}

def empty : Graph α := ⟨.empty, #[]⟩

def module? (g : Graph α) (name : String) : Option Module := g.modules.find? name

def moduleNames (g : Graph α) : List String := g.modules.keys

def connection? (g : Graph α) (c : ConnectionId) : Option (Connection α) := g.connections[c.slot]?

/-- The handle that the next module gets. -/
def nextModuleId (g : Graph α) : ModuleId := ⟨g.modules.size⟩

/-- Adds a module with an empty interface. -/
def addModule (g : Graph α) (name kind : String) : Except Fault (ModuleId × Graph α) :=
  if g.modules.contains name then .error (.duplicateModule name)
  else .ok (g.nextModuleId,
    { g with modules := g.modules.insert name (Module.new g.nextModuleId kind) })

/-- Changes the description of a module; its interface lists are its own business. -/
def modifyModule (g : Graph α) (name : String) (f : Module → Module) : Graph α :=
  { g with modules := g.modules.modify name f }

/-- Numbers new ends from `first` on and lists those of one family by name, ends of equal names in
the order given. -/
def listFamily (chain : Bool) (first : Nat) (ends : List (Connection α)) : List ConnectionId :=
  let family := (ends.zipIdx first).filter fun e => e.1.kind.isChain == chain
  (family.mergeSort fun a b => a.1.name ≤ b.1.name).map fun e => ⟨e.2⟩

/-- Adds a module together with the ends of its interface. -/
def attach (g : Graph α) (name : String) (m : Module) (ends : List (Connection α)) : Graph α :=
  let first := g.connections.size
  { modules := g.modules.insert name
      { m with
        id := g.nextModuleId
        channels := listFamily false first ends
        chains := listFamily true first ends }
    connections := g.connections ++ ends.toArray }

/-- Required ends without a partner, in the order of the modules and of their interfaces. -/
def unmatched (g : Graph α) : List ConnectionId :=
  (g.modules.values.flatMap Module.ends).filter fun c =>
    (g.connection? c).any fun e => !e.optional && !e.matched

def hasUnmatched (g : Graph α) : Bool := !g.unmatched.isEmpty

/-- The module that owns the partner of an end. -/
def partnerOwner? (g : Graph α) (c : Connection α) : Option String := do
  let p ← g.connection? (← c.partner)
  if g.modules.contains p.owner then some p.owner else none

/-- The chains that a module lists an end of, ascending. -/
def chainNamesOf (g : Graph α) (m : Module) : List String :=
  m.chains.filterMap fun c => (g.connection? c).map (·.name)

/-- The modules that carry each chain, in the order in which the chain is threaded. -/
def chainCarriers (g : Graph α) : NameMap (List String) :=
  g.modules.entries.foldl (fun carriers (name, m) =>
    (NameSet.ofList (g.chainNamesOf m)).toList.foldl
      (fun carriers chain => carriers.append chain name) carriers) .empty

end Graph
end HardwareLinker
