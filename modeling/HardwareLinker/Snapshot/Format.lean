import HardwareLinker.Codec
import HardwareLinker.Digest
import HardwareLinker.Floorplan.Basic

/-!
The bytes of a snapshot file: the length of the header in four bytes, the header, and the groups.
The header tells for which stage the groups were stored and the digest of their bytes; what follows
the groups is ignored.
-/

namespace HardwareLinker

/-- How far a link has come when its groups are stored. -/
inductive Stage where
  /-- Areas are known, nothing is placed. -/
  | elaborated
  | placed
  /-- Placed, and annotated with the paths of the merge tree. -/
  | final
deriving DecidableEq, Repr

namespace Stage

def all : List Stage := [elaborated, placed, final]

def name : Stage → String
  | elaborated => "elaborated"
  | placed => "placed"
  | final => "final"

def index : Stage → Nat
  | elaborated => 0
  | placed => 1
  | final => 2

end Stage

/-- Groups by name. -/
abbrev Snapshot := NameMap (AreaGroup Binary64)

namespace Snapshot

/-- Why the bytes of a file are no snapshot of a stage. -/
inductive Flaw where
  | noHeaderLength
  | headerCut
  | headerUnreadable
  | wrongMagic
  | wrongVersion (version : Nat)
  | wrongStage (expected actual : Stage)
  | wrongChecksum (expected actual : Digest)
  | groupsUnreadable
deriving DecidableEq, Repr

structure Header where
  magic : List UInt8
  version : Nat
  stage : Stage
  toolVersion : String
  checksum : Digest
deriving DecidableEq

/-- The letters `LIMS`. -/
def magicBytes : List UInt8 := [0x4C, 0x49, 0x4D, 0x53]

def formatVersion : Nat := 1

def toolVersion : String := "0.1.0"

open Codec

def sizeCodec : Codec (Size Binary64) :=
  (float.pair float).iso (fun (width, height) => ⟨width, height⟩) (fun s => (s.width, s.height))

def dimensionCodec : Codec (Dimension Binary64) where
  write
    | .unset => short.write 0
    | .fixed s => short.write 1 ++ sizeCodec.write s
    | .options sizes => short.write 2 ++ (list sizeCodec).write sizes
  read bytes := do
    let (variant, rest) ← short.read bytes
    match variant with
    | 0 => return (.unset, rest)
    | 1 =>
      let (s, rest) ← sizeCodec.read rest
      return (.fixed s, rest)
    | 2 =>
      let (sizes, rest) ← (list sizeCodec).read rest
      return (.options sizes, rest)
    | _ => none

def groupCodec : Codec (AreaGroup Binary64) :=
  (text.pair <| (option text).pair <| float.pair <| (option float).pair <| (option float).pair <|
    dimensionCodec.pair <| (option text).pair <| (list text).pair <| map text).iso
    (fun (name, sourcePath, area, x, y, dimension, parent, children, attributes) =>
      { name, sourcePath, area, x, y, dimension, parent, children, attributes })
    (fun g => (g.name, g.sourcePath, g.area, g.x, g.y, g.dimension, g.parent, g.children,
      g.attributes))

def groupsCodec : Codec Snapshot := map groupCodec

def stageCodec : Codec Stage := short.refine (fun n => Stage.all[n]?) Stage.index

def digestCodec : Codec Digest :=
  ((word 8).pair (word 8)).iso (fun (low, high) => ⟨low.toUInt64, high.toUInt64⟩)
    (fun d => (d.low.toNat, d.high.toNat))

def headerCodec : Codec Header :=
  ((raw 4).pair <| short.pair <| stageCodec.pair <| text.pair digestCodec).iso
    (fun (magic, version, stage, toolVersion, checksum) =>
      { magic, version, stage, toolVersion, checksum })
    (fun h => (h.magic, h.version, h.stage, h.toolVersion, h.checksum))

def digestOf (bytes : List UInt8) : Digest := Digest.ofBytes bytes.toArray

/-- The file that stores groups for a stage. -/
def encode (stage : Stage) (groups : Snapshot) : List UInt8 :=
  let payload := groupsCodec.write groups
  let header := headerCodec.write
    { magic := magicBytes, version := formatVersion, stage, toolVersion,
      checksum := digestOf payload }
  (word 4).write header.length ++ header ++ payload

/-- The header of a file, and the bytes behind it. -/
def splitHeader (file : List UInt8) : Except Flaw (Header × List UInt8) :=
  match (word 4).read file with
  | none => .error .noHeaderLength
  | some (length, rest) =>
    match (raw length).read rest with
    | none => .error .headerCut
    | some (bytes, payload) =>
      match headerCodec.read bytes with
      | none => .error .headerUnreadable
      | some (header, _) => .ok (header, payload)

/-- Why a header does not go with a stage and the bytes behind it. -/
def Header.flaw? (h : Header) (stage : Stage) (payload : List UInt8) : Option Flaw :=
  if h.magic ≠ magicBytes then some .wrongMagic
  else if h.version ≠ formatVersion then some (.wrongVersion h.version)
  else if h.stage ≠ stage then some (.wrongStage stage h.stage)
  else if digestOf payload ≠ h.checksum then some (.wrongChecksum h.checksum (digestOf payload))
  else none

/-- The groups that a file stores for a stage. -/
def decode (stage : Stage) (file : List UInt8) : Except Flaw Snapshot := do
  let (header, payload) ← splitHeader file
  match header.flaw? stage payload with
  | some flaw => throw flaw
  | none =>
    match groupsCodec.read payload with
    | some (groups, _) => return groups
    | none => throw .groupsUnreadable

end Snapshot
end HardwareLinker
