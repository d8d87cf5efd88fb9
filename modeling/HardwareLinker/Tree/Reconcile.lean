import HardwareLinker.Tree.Basic
import HardwareLinker.Pairs

/-!
Reconciliation of two siblings. The pairing of the graph decides which channels link here; chain
ends link by name. Below the root a chain is closed at most once, so that it stays open for the rest
of the design; the root closes whatever is left.
-/

namespace HardwareLinker

namespace MergeTree

/-- What building or checking a tree finds wrong in the tree itself. -/
inductive Defect where
  | incompatiblePair (channel left right : String)
  | emptySide (members : Nat)
  | noCut (members : Nat)
  | nameTwice (name : String)
  | moduleCount (inTree inGraph : Nat)
deriving DecidableEq, Repr

def Defect.message (d : Defect) : String :=
  "internal invariant violation: " ++ match d with
  | incompatiblePair channel left right =>
    s!"paired channel `{channel}` is not compatible across `{left}` and `{right}`"
  | emptySide members => s!"cut of {members} modules leaves a side empty"
  | noCut members => s!"min cut requested for {members} modules"
  | nameTwice name => s!"node name `{name}` is used twice"
  | moduleCount inTree inGraph => s!"tree holds {inTree} modules, graph has {inGraph}"

/-- Why no tree is built. -/
inductive Fault where
  | emptyGraph
  | graph (fault : Graph.Fault)
  | internal (defect : Defect)
deriving DecidableEq, Repr

def Fault.message : Fault → String
  | emptyGraph => "cannot partition a graph with no modules"
  | graph fault => fault.message
  | internal defect => defect.message

end MergeTree

/-- A port of a child, with the name of the child. -/
structure ChildPort (α : Type) where
  child : String
  port : Port α

/-- Two ports to be linked. -/
abbrev PortPair (α : Type) := ChildPort α × ChildPort α

/-- Pairs found, then the ports of either side that stay open. -/
structure Paired (α : Type) where
  pairs : List (PortPair α)
  left : List (ChildPort α)
  right : List (ChildPort α)

namespace Reconcile

open MergeTree

variable {α : Type}

def childPorts (child : String) (ports : List (Port α)) : List (ChildPort α) :=
  ports.map fun p => ⟨child, p⟩

/-- Whether two ports can be paired; a conflict of types is a fault. -/
def pairs (a b : ChildPort α) : Except Fault Bool :=
  match a.port.connection.pairs b.port.connection with
  | .error t => .error (.graph (.typeMismatch t))
  | .ok ok => .ok ok

/-- A channel pairs with the port of its partner in the graph, and must be able to. -/
def pairsChannel (partner? : ConnectionId → Option ConnectionId) (a b : ChildPort α) :
    Except Fault Bool :=
  if partner? a.port.origin == some b.port.origin then
    match pairs a b with
    | .error e => .error e
    | .ok true => .ok true
    | .ok false => .error (.internal (.incompatiblePair a.port.connection.name a.child b.child))
  else .ok false

/-- Takes the left ports in order and gives each the first port on the right that passes the test;
`skip` sees the pairs made so far and leaves a port out. -/
def pairAcross (test : ChildPort α → ChildPort α → Except Fault Bool)
    (skip : List (PortPair α) → ChildPort α → Bool) :
    Paired α → List (ChildPort α) → Except Fault (Paired α)
  | done, [] => .ok done
  | done, a :: rest =>
    if skip done.pairs a then pairAcross test skip { done with left := done.left ++ [a] } rest
    else
      match takeFirst (test a) done.right with
      | .error e => .error e
      | .ok none => pairAcross test skip { done with left := done.left ++ [a] } rest
      | .ok (some (b, others)) =>
        pairAcross test skip { done with pairs := done.pairs ++ [(a, b)], right := others } rest

/-- The chain is already closed by one of the pairs. -/
def closedIn (done : List (PortPair α)) (a : ChildPort α) : Bool :=
  done.any fun p => p.1.port.connection.name == a.port.connection.name

def pairChannels (partner? : ConnectionId → Option ConnectionId) (left right : List (ChildPort α)) :
    Except Fault (Paired α) :=
  pairAcross (pairsChannel partner?) (fun _ _ => false) ⟨[], [], right⟩ left

def pairChains (root : Bool) (left right : List (ChildPort α)) : Except Fault (Paired α) :=
  pairAcross pairs (fun done a => !root && closedIn done a) ⟨[], [], right⟩ left

/-- Pairs each port with the first later one that fits, whichever child they belong to. -/
def closeRing : List (ChildPort α) → Except Fault (List (PortPair α) × List (ChildPort α))
  | [] => .ok ([], [])
  | a :: rest =>
    match h : takeFirst (pairs a) rest with
    | .error e => .error e
    | .ok none => (closeRing rest).map fun (found, left) => (found, a :: left)
    | .ok (some (b, others)) =>
      have : others.length < rest.length + 1 := by
        have := length_of_takeFirst h
        omega
      (closeRing others).map fun (found, left) => ((a, b) :: found, left)
termination_by ports => ports.length

/-- A pair as a link, from its source side. -/
def link (owner? : ConnectionId → Option String) (family : Link.Family) (p : PortPair α) : Link :=
  let (source, sink) := if p.1.port.connection.kind.isSource then (p.1, p.2) else (p.2, p.1)
  { family
    name := source.port.connection.name
    source := source.child
    sink := sink.child
    sourceModule := (owner? source.port.origin).getD ""
    sinkModule := (owner? sink.port.origin).getD ""
    buffered := false }

/-- A buffer for each link as long as there are any, and the budget that is left. -/
def spendBuffers : Nat → List Link → List Link × Nat
  | budget, [] => ([], budget)
  | budget, l :: rest =>
    let (spent, left) := spendBuffers (budget - 1) rest
    ({ l with buffered := 0 < budget } :: spent, left)

/-- What a merge node links and what it leaves open. -/
structure Outcome (α : Type) where
  channels : List (Port α)
  chains : List (Port α)
  links : List Link

def reconcile (g : Graph α) (root : Bool) (budget : Nat) (left right : Interface α) :
    Except Fault (Outcome α) := do
  let partner? (c : ConnectionId) := (g.connection? c).bind (·.partner)
  let owner? (c : ConnectionId) := (g.connection? c).map (·.owner)
  let channels ← pairChannels partner? (childPorts left.name left.channels)
    (childPorts right.name right.channels)
  let chains ← pairChains root (childPorts left.name left.chains)
    (childPorts right.name right.chains)
  let opened := chains.left ++ chains.right
  let (ring, opened) ← if root then closeRing opened else pure ([], opened)
  -- One budget serves the channels, then the chains across, then the ring.
  let (channelLinks, budget) := spendBuffers budget (channels.pairs.map (link owner? .channel))
  let (chainLinks, budget) := spendBuffers budget (chains.pairs.map (link owner? .chain))
  let (ringLinks, _) := spendBuffers budget (ring.map (link owner? .chain))
  return {
    channels := (channels.left ++ channels.right).map (·.port)
    chains := opened.map (·.port)
    links := channelLinks ++ chainLinks ++ ringLinks }

end Reconcile
end HardwareLinker
