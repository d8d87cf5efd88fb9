import HardwareLinker.Connection.Basic
import HardwareLinker.Text.Blank
import HardwareLinker.Text.Lines

/-!
Log records of open connection ends. A record follows the first mark `Dangling` of its line:

    kind:{type}:index:name:True|False:width:module:root

The braces of the type are balanced, so it may hold colons. A chain record stands for both ends of
a chain segment. Lines without the mark hold no record.
-/

namespace HardwareLinker.Connection

/-- What a record may announce. -/
inductive RecordKind where
  | send
  | recv
  | chain
  | routingSend
  | routingRecv
deriving DecidableEq, Repr

namespace RecordKind

def all : List RecordKind := [send, recv, chain, routingSend, routingRecv]

def text : RecordKind → String
  | send => "Send"
  | recv => "Recv"
  | chain => "Chain"
  | routingSend => "ChainRoutingSend"
  | routingRecv => "ChainRoutingRecv"

def ofText? (s : String) : Option RecordKind := all.find? (·.text == s)

/-- The ends that a record stands for, in order. -/
def ends : RecordKind → List Kind
  | send => [.send]
  | recv => [.recv]
  | chain => [.chainSource, .chainSink]
  | routingSend => [.routingSend]
  | routingRecv => [.routingRecv]

end RecordKind

structure Record where
  kind : RecordKind
  type : String
  index : Nat
  name : String
  optional : Bool
  width : Nat
  owner : String
  chainRoot : Option String
deriving DecidableEq, Repr

/-- Why a marked line is no record. -/
inductive RecordFault where
  | noKind
  | typeNotBraced
  | noFields
  | fieldCount (n : Nat)
  | badIndex (field : String)
  | emptyName
  | badFlag (field : String)
  | badWidth (field : String)
  | emptyOwner
  | unknownKind (field : String)
deriving DecidableEq, Repr

def RecordFault.message : RecordFault → String
  | noKind => "missing `:` after record kind"
  | typeNotBraced => "raw type must be `\x7b...\x7d`"
  | noFields => "missing `:` after raw type"
  | fieldCount n => s!"expected 6 fields after the raw type, found {n}"
  | badIndex field => s!"bad index `{field}`"
  | emptyName => "empty connection name"
  | badFlag field => s!"bad optional flag `{field}`"
  | badWidth field => s!"bad bitwidth `{field}`"
  | emptyOwner => "empty module name"
  | unknownKind field => s!"unknown record kind `{field}`"

/-- The text up to the brace that closes `depth` open ones, and what follows that brace. -/
def closeBrace : Nat → List Char → Option (List Char × List Char)
  | _, [] => none
  | depth, c :: rest =>
    if c == '\x7d' && depth ≤ 1 then some ([], rest)
    else
      let depth := if c == '\x7b' then depth + 1 else if c == '\x7d' then depth - 1 else depth
      (closeBrace depth rest).map fun (inside, after) => (c :: inside, after)

def splitBraced : List Char → Option (List Char × List Char)
  | c :: rest => if c == '\x7b' then closeBrace 1 rest else none
  | [] => none

def mark : List Char := "Dangling".toList

def wordLimit : Nat := UInt32.size - 1

def readFlag (field : String) : Except RecordFault Bool :=
  if field == "True" then .ok true
  else if field == "False" then .ok false
  else .error (.badFlag field)

def readRoot (field : String) : Option String :=
  if field == "None" || field == "" then none else some field

def readNumber (fault : String → RecordFault) (field : String) : Except RecordFault Nat :=
  match natBelow? wordLimit field with
  | some n => .ok n
  | none => .error (fault field)

namespace Record

/-- Reads the six fields after the type; the kind is looked at last. -/
def ofFields (kind type : String) (fields : List String) : Except RecordFault Record :=
  match fields with
  | [index, name, flag, width, owner, root] => do
    let index ← readNumber .badIndex index
    if name.isEmpty then throw .emptyName
    let optional ← readFlag flag
    let width ← readNumber .badWidth width
    if owner.isEmpty then throw .emptyOwner
    match RecordKind.ofText? kind with
    | some kind =>
        return { kind, type, index, name, optional, width, owner, chainRoot := readRoot root }
    | none => throw (.unknownKind kind)
  | _ => .error (.fieldCount fields.length)

/-- Reads what follows the mark. -/
def ofMarked (cs : List Char) : Except RecordFault Record :=
  match Text.splitOnce ':' cs with
  | none => .error .noKind
  | some (kind, rest) =>
    match splitBraced rest with
    | none => .error .typeNotBraced
    | some (type, ':' :: rest) =>
      ofFields (String.ofList kind) (String.ofList type) ((rest.splitOn ':').map String.ofList)
    | some _ => .error .noFields

def ofLine (line : String) : Except RecordFault (Option Record) :=
  match Text.after? mark line.toList with
  | none => .ok none
  | some rest => (ofMarked (Text.trimEnd rest)).map some

/-- The record as a compiler writes it, after the mark. -/
def text (r : Record) : String :=
  let flag := if r.optional then "True" else "False"
  ":".intercalate [r.kind.text, "\x7b" ++ r.type ++ "\x7d", toString r.index, r.name, flag,
    toString r.width, r.owner, r.chainRoot.getD "None"]

def connection {α : Type} [Scalar α] (r : Record) (kind : Kind) : Connection α :=
  { kind, name := r.name, type := r.type, width := r.width, index := r.index,
    optional := r.optional, owner := r.owner, chainRoot := r.chainRoot, activity := 1,
    matched := false, partner := none }

/-- The ends of a record, all free. -/
def connections {α : Type} [Scalar α] (r : Record) : List (Connection α) :=
  r.kind.ends.map r.connection

end Record
end HardwareLinker.Connection
