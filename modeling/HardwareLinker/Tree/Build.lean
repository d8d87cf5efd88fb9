import HardwareLinker.Cut.Minimum
import HardwareLinker.Graph.Edges
import HardwareLinker.Tree.Names
import HardwareLinker.Tree.Reconcile

/-!
Building a merge tree: the members are split in two until single modules are left, by a placement
oracle where it has an opinion and by the minimum cut otherwise, and siblings are reconciled bottom
up. The oracle is any pair of functions; labels that are no proper split are ignored.
-/

namespace HardwareLinker.MergeTree

/-- Guidance from the placement. Members are given by name; traffic uses positions among them. -/
structure Hints (α : Type) where
  /-- A side for each member, zero or one; nothing where there is no opinion. -/
  bisect : List String → List (Nat × Nat × α) → Option (List Nat)
  /-- The pipeline buffers to spend between two sides. -/
  bufferBudget : List String → List String → Nat

/-- Guidance for a design that is not placed. -/
def Hints.none {α : Type} : Hints α := ⟨fun _ _ => .none, fun _ _ => 0⟩

/-- What building asks the oracle. -/
inductive Question (α : Type) where
  | bisect (members : List String) (traffic : List (Nat × Nat × α))
  | bufferBudget (left right : List String)

/-- What a tree is built from. `edges` are those of the graph. -/
structure Plan (α : Type) where
  graph : Graph α
  edges : List (String × String × α)
  hints : Hints α
  /-- A node below the root with more rules than this is a synthesis boundary. -/
  threshold : Nat

/-- What building leaves behind: names given out, nodes made, questions asked. -/
structure Builder (α : Type) where
  names : NameSupply
  nodes : Nat := 0
  asked : List (Question α) := []

variable {α : Type} [Scalar α]

def Plan.new (graph : Graph α) (hints : Hints α) (threshold : Nat) : Plan α :=
  { graph, edges := graph.edges, hints, threshold }

def Builder.new (graph : Graph α) : Builder α := { names := NameSupply.reserve graph.moduleNames }

/-- Position of a member; of a repeated one, the last. -/
def position? (members : List String) (name : String) : Option Nat :=
  (members.zipIdx.reverse.find? fun e => e.1 == name).map Prod.snd

/-- The edges among the members, by position. -/
def Plan.trafficAmong (p : Plan α) (members : List String) : List (Nat × Nat × α) :=
  p.edges.filterMap fun (a, b, w) => do
    return (← position? members a, ← position? members b, w)

/-- One label a member, each zero or one, and both sides taken. -/
def isProperSplit (labels : List Nat) (size : Nat) : Bool :=
  labels.length == size && labels.all (· ≤ 1) && labels.contains 0 && labels.contains 1

/-- Side labels for the members. -/
def Plan.split (p : Plan α) (members : List String) (traffic : List (Nat × Nat × α)) :
    Except Defect (List Nat) :=
  match (p.hints.bisect members traffic).filter (isProperSplit · members.length) with
  | some labels => .ok labels
  | none =>
    match Cut.minimum? members.length traffic with
    | some cut => .ok cut.labels
    | none => .error (.noCut members.length)

/-- The members of one side. -/
def side (zero : Bool) (members : List String) (labels : List Nat) : List String :=
  ((members.zip labels).filter fun e => (e.2 == 0) == zero).map Prod.fst

/-- The interface of a module as a leaf: copies of its ends, freed; a chain that bears no root
starts here. -/
def leafInterface (g : Graph α) (name : String) : Interface α :=
  let port (c : ConnectionId) : Option (Port α) := (g.connection? c).map fun e =>
    let root := if e.kind.isChain then some (e.chainRoot.getD name) else e.chainRoot
    ⟨{ e.unmatch with chainRoot := root }, c⟩
  match g.module? name with
  | some m => ⟨name, m.channels.filterMap port, m.chains.filterMap port⟩
  | none => ⟨name, [], []⟩

namespace Builder

def leaf (b : Builder α) (g : Graph α) (name : String) : MergeTree α × Builder α :=
  (.module (leafInterface g name), { b with nodes := b.nodes + 1 })

def filler (b : Builder α) : MergeTree α × Builder α :=
  let (name, names) := b.names.placeholder
  (.placeholder name, { b with names, nodes := b.nodes + 1 })

def ask (b : Builder α) (q : Question α) : Builder α := { b with asked := b.asked ++ [q] }

end Builder

/-- A copy of a port as the named node exposes it. -/
def expose (name : String) (p : Port α) : Port α :=
  { p with connection := { p.connection with owner := name } }

/-- The merge node over two children. Rules that it does not keep as a boundary are pushed up. -/
def node (name : String) (root : Bool) (threshold : Nat) (o : Reconcile.Outcome α)
    (left right : MergeTree α) : MergeTree α :=
  let interface : Interface α := ⟨name, o.channels.map (expose name), o.chains.map (expose name)⟩
  let rules := interface.localRuleCount + left.exported + right.exported
  let boundary := root || threshold < rules
  .merge interface o.links (if boundary then 0 else rules) boundary left right

/-- Joins two subtrees; the name is taken even if they cannot be reconciled. -/
def join (p : Plan α) (root : Bool) (budget : Nat) (left right : MergeTree α) (b : Builder α) :
    Except Fault (MergeTree α) × Builder α :=
  let (name, names) := b.names.node
  let b := { b with names }
  match Reconcile.reconcile p.graph root budget left.interface right.interface with
  | .error e => (.error e, b)
  | .ok o => (.ok (node name root p.threshold o left right), { b with nodes := b.nodes + 1 })

/-- The subtree of the members. -/
def grow (p : Plan α) (root : Bool) (members : List String) (b : Builder α) :
    Except Fault (MergeTree α) × Builder α :=
  match members with
  | [] =>
    if root then (.error .emptyGraph, b)
    else
      let (t, b) := b.filler
      (.ok t, b)
  | [only] =>
    let (leaf, b) := b.leaf p.graph only
    if root then
      let (empty, b) := b.filler
      join p true 0 leaf empty b
    else (.ok leaf, b)
  | members@(_ :: _ :: _) =>
    let traffic := p.trafficAmong members
    let b := b.ask (.bisect members traffic)
    match p.split members traffic with
    | .error d => (.error (.internal d), b)
    | .ok labels =>
      let zero := side true members labels
      let one := side false members labels
      let b := b.ask (.bufferBudget zero one)
      if h : zero.length < members.length ∧ one.length < members.length then
        have := h
        match grow p false zero b with
        | (.error e, b) => (.error e, b)
        | (.ok left, b) =>
          match grow p false one b with
          | (.error e, b) => (.error e, b)
          | (.ok right, b) => join p root (p.hints.bufferBudget zero one) left right b
      else (.error (.internal (.emptySide members.length)), b)
termination_by members.length
decreasing_by
  · subst members; exact this.1
  · subst members; exact this.2

/-- The first name that two nodes bear. -/
def nameTwice? (t : MergeTree α) : Option String :=
  let rec go (seen : List String) : List String → Option String
    | [] => none
    | name :: rest => if seen.contains name then some name else go (name :: seen) rest
  go [] (t.preorder.map (·.name))

/-- Node names are unique and the tree has as many module leaves as the graph has modules. -/
def validate (t : MergeTree α) (g : Graph α) : Except Defect Unit :=
  match t.nameTwice? with
  | some name => .error (.nameTwice name)
  | none =>
    let modules := (t.leaves.filterMap moduleName?).length
    if modules ≠ g.modules.size then .error (.moduleCount modules g.modules.size) else .ok ()

/-- The merge tree of a whole graph, with the questions asked on the way. -/
def buildAsking (g : Graph α) (hints : Hints α) (threshold : Nat) :
    Except Fault (MergeTree α × List (Question α)) :=
  match grow (Plan.new g hints threshold) true g.moduleNames (Builder.new g) with
  | (.error e, _) => .error e
  | (.ok t, b) =>
    match t.validate g with
    | .error d => .error (.internal d)
    | .ok () => .ok (t, b.asked)

def build (g : Graph α) (hints : Hints α) (threshold : Nat) : Except Fault (MergeTree α) :=
  (buildAsking g hints threshold).map Prod.fst

end HardwareLinker.MergeTree
