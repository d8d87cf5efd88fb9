import HardwareLinker.Scalar

/-!
Connection ends: the open channel and chain ends that a separately compiled module leaves behind,
and when two of them may be linked. Equal names with different types never link; they are a fault.
-/

namespace HardwareLinker

/-- A connection end of one graph, by order of insertion. -/
structure ConnectionId where
  slot : Nat
deriving DecidableEq, Repr

namespace Connection

/-- Direction and family of an end. -/
inductive Kind where
  | send
  | recv
  | chainSource
  | chainSink
  /-- A chain end forwarded across a boundary, producer side. -/
  | routingSend
  /-- A chain end forwarded across a boundary, consumer side. -/
  | routingRecv
deriving DecidableEq, Repr

namespace Kind

def all : List Kind := [send, recv, chainSource, chainSink, routingSend, routingRecv]

def isChain : Kind → Bool
  | send | recv => false
  | _ => true

/-- Data leaves the owning module through this end. -/
def isSource : Kind → Bool
  | send | chainSource | routingSend => true
  | _ => false

def complements (a b : Kind) : Bool := a.isChain == b.isChain && a.isSource != b.isSource

def text : Kind → String
  | send => "Send"
  | recv => "Recv"
  | chainSource => "ChainSrc"
  | chainSink => "ChainSink"
  | routingSend => "ChainRoutingSend"
  | routingRecv => "ChainRoutingRecv"

def ofText? (s : String) : Option Kind := all.find? (·.text == s)

theorem complements_comm (a b : Kind) : a.complements b = b.complements a := by
  cases a <;> cases b <;> rfl

end Kind
end Connection

open Connection in
structure Connection (α : Type) where
  kind : Kind
  name : String
  /-- The type as the compiler prints it. -/
  type : String
  width : Nat
  /-- Position of the bits in the packed interface of the module. -/
  index : Nat
  /-- An optional end may stay open. -/
  optional : Bool
  /-- The module, or the node of a merge tree, that exposes the end. -/
  owner : String
  /-- The module where a chain starts, if the compiler recorded one. -/
  chainRoot : Option String
  /-- Traffic estimate. -/
  activity : α
  matched : Bool
  partner : Option ConnectionId
deriving DecidableEq

namespace Connection

variable {α : Type}

def unmatch (c : Connection α) : Connection α := { c with matched := false, partner := none }

def linkTo (c : Connection α) (p : ConnectionId) : Connection α :=
  { c with matched := true, partner := some p }

/-- Two ends of one name whose types differ, in the order in which they are reported. -/
structure TypeConflict where
  name : String
  firstOwner : String
  firstType : String
  secondOwner : String
  secondType : String
deriving DecidableEq, Repr

namespace TypeConflict

def message (t : TypeConflict) : String :=
  s!"connection `{t.name}` has mismatched types: `{t.firstType}` in `{t.firstOwner}` vs " ++
    s!"`{t.secondType}` in `{t.secondOwner}`"

end TypeConflict

/-- Ends of one name with different types, whatever their direction and state. The report does not
depend on the order of the two. -/
def conflict? (a b : Connection α) : Option TypeConflict :=
  if a.name = b.name ∧ a.type ≠ b.type then
    let ordered : Bool := a.owner < b.owner || (a.owner == b.owner && a.type ≤ b.type)
    if ordered then some ⟨a.name, a.owner, a.type, b.owner, b.type⟩
    else some ⟨a.name, b.owner, b.type, a.owner, a.type⟩
  else none

/-- Both ends are free and one feeds the other. -/
def linkable (a b : Connection α) : Bool :=
  a.name == b.name && !a.matched && !b.matched && a.kind.complements b.kind

/-- Whether two ends can be paired, or the conflict of their types. -/
def pairs (a b : Connection α) : Except TypeConflict Bool :=
  match a.conflict? b with
  | some t => .error t
  | none => .ok (a.linkable b)

end Connection
end HardwareLinker
