import HardwareLinker.Graph.Matching

/-!
Assembly of module graphs: from a list of free ends, and by merging one graph into another. A merge
is refused before anything changes; chains of the incoming modules are threaded anew through all
their carriers.
-/

namespace HardwareLinker.Graph

variable {α : Type}

/-- The ends by owner, in the order given. -/
def byOwner (ends : List (Connection α)) : NameMap (List (Connection α)) :=
  ends.foldl (fun owners c => owners.append c.owner c) .empty

/-- A graph of the given ends in which nothing is linked yet. -/
def gather (ends : List (Connection α)) : Graph α :=
  (byOwner ends).entries.foldl
    (fun g (owner, ends) => g.attach owner (Module.new g.nextModuleId "") ends) empty

def ofConnections (ends : List (Connection α)) : Except Fault (Graph α) :=
  (gather ends).matchFresh fun _ => true

/-- The least module name that two graphs share. -/
def sharedModule? (g incoming : Graph α) : Option String :=
  incoming.moduleNames.find? g.modules.contains

/-- The first pair of ends of one family, an incoming one and one of ours, whose types conflict. -/
def mergeConflict? (g incoming : Graph α) : Option Connection.TypeConflict :=
  (incoming.modules.values.flatMap Module.ends).findSome? fun c =>
    (g.modules.values.flatMap Module.ends).findSome? fun o => do
      let new ← incoming.connection? c
      let old ← g.connection? o
      if old.kind.isChain == new.kind.isChain then old.conflict? new else none

/-- The ends of an incoming module, freed. -/
def freedEnds (incoming : Graph α) (m : Module) : List (Connection α) :=
  m.ends.filterMap fun c => (incoming.connection? c).map (·.unmatch)

/-- The modules of both graphs; the incoming ends are free. -/
def juxtapose (g incoming : Graph α) : Graph α :=
  incoming.modules.entries.foldl (fun g (name, m) => g.attach name m (incoming.freedEnds m)) g

def merge (g incoming : Graph α) : Except Fault (Graph α) :=
  match g.sharedModule? incoming with
  | some name => .error (.duplicateModule name)
  | none =>
    match g.mergeConflict? incoming with
    | some t => .error (.typeMismatch t)
    | none => (g.juxtapose incoming).matchFresh incoming.modules.contains

/-- The ends that the records of a log announce, in log order. -/
def endsOfLines [Scalar α] (lines : List String) (first : Nat) :
    Except Fault (List (Connection α)) :=
  match lines with
  | [] => .ok []
  | line :: rest =>
    match Connection.Record.ofLine line with
    | .error fault => .error (.malformedRecord first fault)
    | .ok record =>
      (endsOfLines rest (first + 1)).map fun ends =>
        ((record.map Connection.Record.connections).getD []) ++ ends

/-- The ends that a log announces; its first malformed record is reported with its line. -/
def endsOfLog [Scalar α] (log : String) : Except Fault (List (Connection α)) :=
  endsOfLines (Text.linesOf log) 1

end HardwareLinker.Graph
