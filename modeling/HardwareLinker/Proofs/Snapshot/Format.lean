import HardwareLinker.Snapshot.Format
import HardwareLinker.Proofs.Codec

/-!
The file of a snapshot holds the snapshot: reading the groups of the stage that a file was written
for gives the groups that were written.
-/

namespace HardwareLinker.Snapshot

open Codec

theorem faithful_size : sizeCodec.Faithful :=
  (faithful_float.pair faithful_float).iso fun _ => rfl

theorem faithful_dimension : dimensionCodec.Faithful where
  reads d hd := by
    -- The variant comes first; what follows it depends on the variant.
    have variant {n : Nat} (hn : n < 3) : short.ReadsBack n := readsBack_short (by omega)
    intro rest
    cases d with
    | unset => simp [dimensionCodec, variant (show 0 < 3 by decide) rest]
    | fixed s =>
        simp only [dimensionCodec, List.length_append] at hd
        have value := faithful_size.reads s (by omega) rest
        simp [dimensionCodec, variant (show 1 < 3 by decide) _, value]
    | options sizes =>
        simp only [dimensionCodec, List.length_append] at hd
        have value := faithful_size.list.reads sizes (by omega) rest
        simp [dimensionCodec, variant (show 2 < 3 by decide) _, value]
  nonempty d := by
    cases d <;> simp [dimensionCodec, short, varying, singleLimit]

theorem faithful_group : groupCodec.Faithful :=
  (faithful_text.pair <| faithful_text.option.pair <| faithful_float.pair <|
    faithful_float.option.pair <| faithful_float.option.pair <| faithful_dimension.pair <|
    faithful_text.option.pair <| faithful_text.list.pair faithful_text.map).iso fun _ => rfl

theorem faithful_groups : groupsCodec.Faithful := faithful_group.map

theorem readsBack_stage (stage : Stage) : stageCodec.ReadsBack stage := by
  apply ReadsBack.refine
  · exact readsBack_short (by cases stage <;> decide)
  · cases stage <;> rfl

theorem readsBack_digest (d : Digest) : digestCodec.ReadsBack d := by
  apply ReadsBack.refine
  · exact (readsBack_word d.low.toNat_lt).pair (readsBack_word d.high.toNat_lt)
  · simp

/-- The header of a file for a stage and the bytes of the groups. -/
def headerFor (stage : Stage) (payload : List UInt8) : Header :=
  { magic := magicBytes, version := formatVersion, stage, toolVersion,
    checksum := digestOf payload }

theorem length_toolVersion : (text.write toolVersion).length = 6 := by
  rw [length_text]
  rfl

theorem readsBack_header (stage : Stage) (payload : List UInt8) :
    headerCodec.ReadsBack (headerFor stage payload) := by
  apply ReadsBack.refine
  · have version : (text.write toolVersion).length < byteLimit := by
      rw [length_toolVersion]
      decide
    exact (readsBack_raw (rfl : magicBytes.length = 4)).pair <|
      (readsBack_short (show formatVersion < _ by decide)).pair <|
      (readsBack_stage stage).pair <| (faithful_text.reads toolVersion version).pair <|
      readsBack_digest _
  · rfl

theorem length_header (stage : Stage) (payload : List UInt8) :
    (headerCodec.write (headerFor stage payload)).length = 28 := by
  have front : (short.write formatVersion).length = 1 := rfl
  have step : (stageCodec.write stage).length = 1 := by cases stage <;> rfl
  have digest (d : Digest) : (digestCodec.write d).length = 16 := by
    simp [digestCodec, iso, Codec.refine, Codec.pair, word]
  change (magicBytes ++ (short.write formatVersion ++ (stageCodec.write stage ++
    (text.write toolVersion ++ digestCodec.write _)))).length = 28
  simp only [List.length_append, front, step, length_toolVersion, digest]
  rfl

/-- What stands in a file before the groups: the length of the header and the header. -/
def front (stage : Stage) (payload : List UInt8) : List UInt8 :=
  (word 4).write 28 ++ headerCodec.write (headerFor stage payload)

theorem encode_eq (stage : Stage) (groups : Snapshot) :
    encode stage groups = front stage (groupsCodec.write groups) ++ groupsCodec.write groups := by
  rw [front, ← length_header stage (groupsCodec.write groups)]
  rfl

theorem length_front (stage : Stage) (payload : List UInt8) :
    (front stage payload).length = 32 := by
  rw [front, List.length_append, length_header]
  rfl

/-- The header is read whatever stands behind it. -/
theorem splitHeader_front (stage : Stage) (payload behind : List UInt8) :
    splitHeader (front stage payload ++ behind) = .ok (headerFor stage payload, behind) := by
  have length : (word 4).ReadsBack 28 := readsBack_word (by decide)
  have bytes := readsBack_raw (length_header stage payload) behind
  have whole := readsBack_header stage payload []
  rw [List.append_nil] at whole
  change (raw 28).read (headerCodec.write (headerFor stage payload) ++ behind) =
    some (headerCodec.write (headerFor stage payload), behind) at bytes
  simp only [splitHeader, front, List.append_assoc, length _, bytes, whole]

theorem flaw?_headerFor (stage : Stage) (payload : List UInt8) :
    (headerFor stage payload).flaw? stage payload = none := by
  simp [Header.flaw?, headerFor]

/-- What was stored for a stage is read for it. -/
theorem decode_encode (stage : Stage) (groups : Snapshot)
    (h : (groupsCodec.write groups).length < byteLimit) :
    decode stage (encode stage groups) = .ok groups := by
  have whole := faithful_groups.reads groups h []
  rw [List.append_nil] at whole
  unfold decode
  rw [encode_eq, splitHeader_front]
  simp only [bind, Except.bind, flaw?_headerFor, whole]
  rfl

end HardwareLinker.Snapshot
