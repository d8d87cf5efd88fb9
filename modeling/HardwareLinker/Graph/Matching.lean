import HardwareLinker.Graph.Basic
import HardwareLinker.Pairs

/-!
Pairing of connection ends. Channels pair greedily: candidate pairs are taken in one fixed order and
each is linked if both ends are still free. A chain is threaded through all modules that carry it,
in name order, and closed into a ring. Whether types conflict does not depend on what is linked, so
conflicts are looked for first.
-/

namespace HardwareLinker.Graph

variable {α : Type}

/-- The channel pairs to look at when the modules named by `fresh` are new. -/
def channelCandidates (g : Graph α) (fresh : String → Bool) : List (ConnectionId × ConnectionId) :=
  (orderedPairs g.modules.entries).flatMap fun (a, b) =>
    if fresh a.1 || fresh b.1 then crossPairs (a.2.channels, b.2.channels) else []

/-- The chains that new modules carry. -/
def freshChains (g : Graph α) (fresh : String → Bool) : List String :=
  (NameSet.ofList (g.modules.entries.flatMap fun (name, m) =>
    if fresh name then g.chainNamesOf m else [])).toList

/-- The ends of one chain, by carrier. -/
def chainEnds (g : Graph α) (chain : String) : List (List ConnectionId) :=
  (g.modules.values.map fun m =>
    m.chains.filter fun c => (g.connection? c).any fun e => e.name == chain).filter (!·.isEmpty)

def conflictAt? (g : Graph α) (p : ConnectionId × ConnectionId) :
    Option Connection.TypeConflict := do
  (← g.connection? p.1).conflict? (← g.connection? p.2)

/-- The first conflict of types that matching meets: channels first, then each chain between
different carriers. -/
def conflict? (g : Graph α) (fresh : String → Bool) : Option Connection.TypeConflict :=
  (g.channelCandidates fresh).findSome? g.conflictAt? <|>
    (g.freshChains fresh).findSome? fun chain =>
      ((orderedPairs (g.chainEnds chain)).flatMap crossPairs).findSome? g.conflictAt?

/-- The table of all ends of a graph. -/
abbrev Table (α : Type) := Array (Connection α)

namespace Table

def linkable (t : Table α) (a b : ConnectionId) : Bool :=
  match t[a.slot]?, t[b.slot]? with
  | some x, some y => x.linkable y
  | _, _ => false

def link (t : Table α) (a b : ConnectionId) : Table α :=
  Array.modify (Array.modify t a.slot (·.linkTo b)) b.slot (·.linkTo a)

def unlink (t : Table α) (c : ConnectionId) : Table α := Array.modify t c.slot (·.unmatch)

def isSource (t : Table α) (c : ConnectionId) : Bool := t[c.slot]?.any (·.kind.isSource)

/-- Links the pairs of a list whose ends are still free when their turn comes. -/
def linkGreedily (t : Table α) (pairs : List (ConnectionId × ConnectionId)) : Table α :=
  pairs.foldl (fun t (a, b) => if t.linkable a b then t.link a b else t) t

/-- Links an end to the first free end of a list that complements it. -/
def linkFirst (t : Table α) (a : ConnectionId) (candidates : List ConnectionId) : Table α :=
  match candidates.find? (t.linkable a) with
  | some b => t.link a b
  | none => t

/-- Where the source ends of the carrier at position `i` look for a sink: the next carrier first,
the carrier itself last. -/
def ringFrom (members : List (List ConnectionId)) (i : Nat) : List ConnectionId :=
  (members.drop (i + 1) ++ members.take (i + 1)).flatten

/-- Drops the links of a chain and links it anew, carrier by carrier. -/
def threadChain (t : Table α) (members : List (List ConnectionId)) : Table α :=
  let freed := members.flatten.foldl unlink t
  members.zipIdx.foldl (fun t (ends, i) =>
    ends.foldl (fun t c => if t.isSource c then t.linkFirst c (ringFrom members i) else t) t) freed

end Table

/-- Links what the new modules bring. -/
def linkFresh (g : Graph α) (fresh : String → Bool) : Graph α :=
  let channels := Table.linkGreedily g.connections (g.channelCandidates fresh)
  { g with
    connections := (g.freshChains fresh).foldl
      (fun t chain => Table.threadChain t (g.chainEnds chain)) channels }

def matchFresh (g : Graph α) (fresh : String → Bool) : Except Fault (Graph α) :=
  match g.conflict? fresh with
  | some t => .error (.typeMismatch t)
  | none => .ok (g.linkFresh fresh)

end HardwareLinker.Graph
