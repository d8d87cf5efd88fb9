import HardwareLinker.Graph.Basic

/-!
Merge trees: modules are the leaves, every inner node links what its two children leave open between
them and exposes the rest. Handles, parents and paths are read off the shape.
-/

namespace HardwareLinker

/-- An open end on the interface of a node: a free copy that is renamed to the node, and the end of
the graph that it stands for. -/
structure Port (α : Type) where
  connection : Connection α
  origin : ConnectionId

/-- What every node of a tree shows. -/
structure Interface (α : Type) where
  name : String
  channels : List (Port α)
  chains : List (Port α)

namespace Interface

variable {α : Type}

/-- All open ends, channels first. -/
def ports (i : Interface α) : List (Port α) := i.channels ++ i.chains

/-- Every open end costs one rule. -/
def localRuleCount (i : Interface α) : Nat := i.channels.length + i.chains.length

def chainEnd? (i : Interface α) (chain : String) (source : Bool) : Option String := do
  let p ← i.chains.find? fun p =>
    p.connection.name == chain && p.connection.kind.isSource == source
  p.connection.chainRoot

/-- The root module of a chain whose incoming end is open here. -/
def chainRootIn? (i : Interface α) (chain : String) : Option String := i.chainEnd? chain false

/-- The root module of a chain whose outgoing end is open here. -/
def chainRootOut? (i : Interface α) (chain : String) : Option String := i.chainEnd? chain true

end Interface

namespace Link

inductive Family where
  | channel
  | chain
deriving DecidableEq, Repr

def Family.text : Family → String
  | channel => "Channel"
  | chain => "Chain"

end Link

open Link in
/-- A connection that a merge node resolves between its children. -/
structure Link where
  family : Family
  name : String
  /-- The child on the source side. -/
  source : String
  /-- The child on the sink side. -/
  sink : String
  sourceModule : String
  sinkModule : String
  /-- A pipeline buffer is spent on it. -/
  buffered : Bool
deriving DecidableEq, Repr

inductive MergeTree (α : Type) where
  /-- A leaf that stands for the module whose name it bears. -/
  | module (interface : Interface α)
  /-- An empty leaf. -/
  | placeholder (name : String)
  /-- `exported` counts the rules pushed onto the next synthesis boundary above. -/
  | merge (interface : Interface α) (links : List Link) (exported : Nat) (boundary : Bool)
      (left right : MergeTree α)

namespace MergeTree

variable {α : Type}

def interface : MergeTree α → Interface α
  | module i => i
  | placeholder name => ⟨name, [], []⟩
  | merge i _ _ _ _ _ => i

def name (t : MergeTree α) : String := t.interface.name

def links : MergeTree α → List Link
  | merge _ links _ _ _ _ => links
  | _ => []

def exported : MergeTree α → Nat
  | merge _ _ exported _ _ _ => exported
  | _ => 0

/-- The node is compiled as a synthesis boundary of its own. -/
def isBoundary : MergeTree α → Bool
  | merge _ _ _ boundary _ _ => boundary
  | _ => false

def children : MergeTree α → List (MergeTree α)
  | merge _ _ _ _ left right => [left, right]
  | _ => []

/-- The module that a leaf stands for. -/
def moduleName? : MergeTree α → Option String
  | module i => some i.name
  | _ => none

def isPlaceholder : MergeTree α → Bool
  | placeholder _ => true
  | _ => false

/-- Number of nodes. -/
def size : MergeTree α → Nat
  | merge _ _ _ _ left right => left.size + right.size + 1
  | _ => 1

/-- Longest way from the root to a leaf. -/
def depth : MergeTree α → Nat
  | merge _ _ _ _ left right => Nat.max left.depth right.depth + 1
  | _ => 0

/-- All subtrees, each before those below it, left before right. -/
def preorder : MergeTree α → List (MergeTree α)
  | t@(merge _ _ _ _ left right) => t :: (left.preorder ++ right.preorder)
  | t => [t]

/-- The leaves from left to right. -/
def leaves (t : MergeTree α) : List (MergeTree α) := t.preorder.filter (·.children.isEmpty)

def boundaries (t : MergeTree α) : List (MergeTree α) := t.preorder.filter isBoundary

/-- What stays open at the root. -/
def residual (t : MergeTree α) : List (Port α) := t.interface.ports

/-- A node with its place: nodes are numbered bottom up, left before right. -/
structure Located (α : Type) where
  id : Nat
  parent : Option Nat
  /-- Names from the root down to the node. -/
  path : List String
  node : MergeTree α

/-- The nodes in pre-order, numbered from `first` on. -/
def locate (first : Nat) (parent : Option Nat) (above : List String) :
    MergeTree α → List (Located α)
  | t@(merge i _ _ _ left right) =>
    let id := first + left.size + right.size
    let path := above ++ [i.name]
    ⟨id, parent, path, t⟩ ::
      (left.locate first (some id) path ++ right.locate (first + left.size) (some id) path)
  | t => [⟨first, parent, above ++ [t.name], t⟩]

def located (t : MergeTree α) : List (Located α) := t.locate 0 none []

/-- The path of a node as one text. -/
def Located.pathText (l : Located α) : String := "/".intercalate l.path

/-- The path of every module leaf. -/
def modulePaths (t : MergeTree α) : NameMap String :=
  NameMap.ofList (t.located.filterMap fun l =>
    l.node.moduleName?.map fun name => (name, l.pathText))

def find? (t : MergeTree α) (name : String) : Option (Located α) :=
  t.located.find? (·.node.name == name)

end MergeTree
end HardwareLinker
