import HardwareLinker.Graph.Assembly
import HardwareLinker.Graph.Edges
import HardwareLinker.Graph.Review

/-!
A module graph as it is kept between operations, together with the edges and the mark for open ends
that were derived when its ends were last matched. A merge writes into the kept graph step by step;
where a step fails, what the steps before it wrote stays.
-/

namespace HardwareLinker.Graph

structure Kept (α : Type) where
  graph : Graph α
  edges : List (String × String × α)
  hasUnmatched : Bool

namespace Kept

variable {α : Type}

def empty : Kept α := ⟨.empty, [], false⟩

/-- A graph whose edges and mark are derived now. -/
def derive [Scalar α] (g : Graph α) : Kept α := ⟨g, g.edges, g.hasUnmatched⟩

def ofConnections [Scalar α] (ends : List (Connection α)) : Except Fault (Kept α) :=
  (Graph.ofConnections ends).map derive

def addModule (s : Kept α) (name kind : String) : Except Fault (ModuleId × Kept α) :=
  (s.graph.addModule name kind).map fun (id, g) => (id, { s with graph := g })

def modifyModule (s : Kept α) (name : String) (f : Module → Module) : Kept α :=
  { s with graph := s.graph.modifyModule name f }

def trim (s : Kept α) : Kept α := { s with graph := s.graph.trim }

/-- Zero where there is no edge. -/
def edgeWeight [Scalar α] (s : Kept α) (a b : String) : α :=
  ((s.edges.find? fun e => e.1 == a && e.2.1 == b).map (·.2.2)).getD 0

/-- The weight in both directions. -/
def traffic [Scalar α] (s : Kept α) (a b : String) : α := s.edgeWeight a b + s.edgeWeight b a

/-- Steps that write into a kept graph and may fail on the way. -/
abbrev Update (α : Type) := ExceptT Fault (StateM (Kept α))

/-- The outcome of some steps and what they leave behind. -/
def Update.apply {β : Type} (u : Update α β) (s : Kept α) : Except Fault β × Kept α := u.run.run s

def modifyTable (f : Table α → Table α) : Update α Unit :=
  modify fun s => { s with graph := { s.graph with connections := f s.graph.connections } }

/-- Fails if the types of two ends conflict. -/
def compareTypes (p : ConnectionId × ConnectionId) : Update α Unit := do
  match (← get).graph.conflictAt? p with
  | some t => throw (.typeMismatch t)
  | none => pure ()

/-- Compares two channels, linked before or not, and links them if both are free. -/
def pairUp (p : ConnectionId × ConnectionId) : Update α Unit := do
  compareTypes p
  modifyTable (·.linkGreedily [p])

/-- Compares the ends of a chain between different carriers and threads it anew. -/
def thread (chain : String) : Update α Unit := do
  let members := (← get).graph.chainEnds chain
  ((orderedPairs members).flatMap crossPairs).forM compareTypes
  modifyTable (·.threadChain members)

def matchFresh [Scalar α] (fresh : String → Bool) : Update α Unit := do
  ((← get).graph.channelCandidates fresh).forM pairUp
  ((← get).graph.freshChains fresh).forM thread
  modify fun s => { s with edges := s.graph.edges }

def insertModules (incoming : Graph α) : Update α Unit :=
  incoming.modules.entries.forM fun (name, m) =>
    modify fun s => { s with graph := s.graph.attach name m (incoming.freedEnds m) }

/-- Merges a graph into the kept one. -/
def merge [Scalar α] (incoming : Graph α) : Update α Unit := do
  let s ← get
  if let some name := s.graph.sharedModule? incoming then throw (.duplicateModule name)
  if let some t := s.graph.mergeConflict? incoming then throw (.typeMismatch t)
  insertModules incoming
  matchFresh incoming.modules.contains
  modify fun s => { s with hasUnmatched := s.graph.hasUnmatched }

end Kept
end HardwareLinker.Graph
