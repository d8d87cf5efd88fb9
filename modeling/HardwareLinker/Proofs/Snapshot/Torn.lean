import HardwareLinker.Proofs.Codec.SelfDelimiting
import HardwareLinker.Proofs.Snapshot.Operations

/-!
Snapshots that never load. A file that was cut off anywhere is refused, and so is the file of
another stage. Behind the header no luck with the checksum is needed: if the digest of the bytes
that are left should be that of all of them, the groups still cannot be read, for they say
themselves where they end.
-/

namespace HardwareLinker.Snapshot

open Codec

/-! ### Groups say where they end -/

theorem selfDelimiting_size : sizeCodec.SelfDelimiting :=
  (selfDelimiting_float.pair selfDelimiting_float).iso _ _

theorem selfDelimiting_dimension : dimensionCodec.SelfDelimiting := by
  intro bytes d rest hread more
  -- The variant says how the bytes behind it are read.
  obtain ⟨⟨variant, behind⟩, hvariant, hread⟩ := Option.bind_eq_some_iff.mp hread
  have marked := selfDelimiting_short _ _ _ hvariant more
  match variant with
  | 0 =>
      obtain ⟨rfl, rfl⟩ : .unset = d ∧ behind = rest := by simpa using hread
      simp [dimensionCodec, marked]
  | 1 =>
      obtain ⟨⟨s, end_⟩, hs, hread⟩ := Option.bind_eq_some_iff.mp hread
      obtain ⟨rfl, rfl⟩ : .fixed s = d ∧ end_ = rest := by simpa using hread
      simp [dimensionCodec, marked, selfDelimiting_size _ _ _ hs more]
  | 2 =>
      obtain ⟨⟨sizes, end_⟩, hsizes, hread⟩ := Option.bind_eq_some_iff.mp hread
      obtain ⟨rfl, rfl⟩ : .options sizes = d ∧ end_ = rest := by simpa using hread
      simp [dimensionCodec, marked, selfDelimiting_size.list _ _ _ hsizes more]
  | _ + 3 => cases hread

theorem selfDelimiting_group : groupCodec.SelfDelimiting :=
  (selfDelimiting_text.pair <| selfDelimiting_text.option.pair <| selfDelimiting_float.pair <|
    selfDelimiting_float.option.pair <| selfDelimiting_float.option.pair <|
    selfDelimiting_dimension.pair <| selfDelimiting_text.option.pair <|
    selfDelimiting_text.list.pair selfDelimiting_text.map).iso _ _

theorem selfDelimiting_groups : groupsCodec.SelfDelimiting := selfDelimiting_group.map

/-- No groups are read from a part of what was written for groups. -/
theorem read_torn_groups {groups : Snapshot} {torn : List UInt8}
    (fits : (groupsCodec.write groups).length < byteLimit) (cut : torn <+: groupsCodec.write groups)
    (strict : torn ≠ groupsCodec.write groups) : groupsCodec.read torn = none :=
  selfDelimiting_groups.read_torn (faithful_groups.reads groups fits) cut strict

/-! ### Torn files -/

/-- What is wrong with the first `n` bytes of a file with these groups. -/
def tornFlaw (groups : Snapshot) (n : Nat) : Flaw :=
  let payload := groupsCodec.write groups
  let left := payload.take (n - 32)
  if n < 4 then .noHeaderLength
  else if n < 32 then .headerCut
  else if digestOf left = digestOf payload then .groupsUnreadable
  else .wrongChecksum (digestOf payload) (digestOf left)

theorem splitHeader_short {file : List UInt8} (h : file.length < 4) :
    splitHeader file = .error .noHeaderLength := by
  have none : (word 4).read file = none := by
    change (raw 4).read file >>= _ = none
    rw [raw_eq_none.mpr h]
    rfl
  rw [splitHeader, none]

theorem splitHeader_cut {behind : List UInt8} (h : behind.length < 28) :
    splitHeader ((word 4).write 28 ++ behind) = .error .headerCut := by
  have length : (word 4).ReadsBack 28 := readsBack_word (by decide)
  simp only [splitHeader, length _, raw_eq_none.mpr h]

/-- The first bytes of a file: too few for the length of the header, too few for the header, or both
and some of the groups. -/
theorem splitHeader_take (stage : Stage) (groups : Snapshot) (n : Nat) :
    splitHeader ((encode stage groups).take n) =
      if n < 4 then .error .noHeaderLength
      else if n < 32 then .error .headerCut
      else .ok (headerFor stage (groupsCodec.write groups),
        (groupsCodec.write groups).take (n - 32)) := by
  have lengthWord : ((word 4).write 28).length = 4 := length_littleEndian ..
  rw [encode_eq]
  split
  · next few =>
    exact splitHeader_short (Nat.lt_of_le_of_lt (List.length_take_le ..) few)
  · next enough =>
    split
    · next few =>
      rw [front, List.append_assoc, List.take_append, lengthWord, List.take_of_length_le (by omega)]
      exact splitHeader_cut (Nat.lt_of_le_of_lt (List.length_take_le ..) (by omega))
    · next enough =>
      rw [List.take_append, length_front, List.take_of_length_le (by rw [length_front]; omega)]
      exact splitHeader_front ..

theorem flaw?_left (stage : Stage) (payload left : List UInt8) :
    (headerFor stage payload).flaw? stage left =
      if digestOf left = digestOf payload then none
      else some (.wrongChecksum (digestOf payload) (digestOf left)) := by
  by_cases lucky : digestOf left = digestOf payload <;> simp [Header.flaw?, headerFor, lucky]

theorem decode_take {stage : Stage} {groups : Snapshot} {n : Nat}
    (fits : (groupsCodec.write groups).length < byteLimit) (h : n < (encode stage groups).length) :
    decode stage ((encode stage groups).take n) = .error (tornFlaw groups n) := by
  unfold decode tornFlaw
  rw [splitHeader_take]
  by_cases short : n < 4
  · simp only [if_pos short]
    rfl
  · by_cases cut : n < 32
    · simp only [if_neg short, if_pos cut]
      rfl
    · rw [encode_eq, List.length_append, length_front] at h
      have strict : (groupsCodec.write groups).take (n - 32) ≠ groupsCodec.write groups := by
        intro same
        have := congrArg List.length same
        rw [List.length_take] at this
        omega
      have unreadable := read_torn_groups fits (List.take_prefix ..) strict
      simp only [if_neg short, if_neg cut, bind, Except.bind, flaw?_left]
      by_cases lucky : digestOf ((groupsCodec.write groups).take (n - 32)) =
          digestOf (groupsCodec.write groups)
      · rw [if_pos lucky, if_pos lucky]
        simp only [unreadable]
        rfl
      · rw [if_neg lucky, if_neg lucky]
        rfl

theorem eq_take {file torn : List UInt8} (cut : torn <+: file) (strict : torn ≠ file) :
    torn = file.take torn.length ∧ torn.length < file.length := by
  refine ⟨List.prefix_iff_eq_take.mp cut, Nat.lt_of_le_of_ne cut.length_le fun same => ?_⟩
  exact strict (cut.eq_of_length same)

theorem decode_other {stage other : Stage} (h : other ≠ stage) (groups : Snapshot) :
    decode other (encode stage groups) = .error (.wrongStage other stage) := by
  unfold decode
  rw [encode_eq, splitHeader_front]
  simp [bind, Except.bind, Header.flaw?, headerFor, h.symm]
  rfl

namespace Store

variable {s : Store} {w : Workspace} {stage : Stage}

theorem content_of_read {bytes : List UInt8} (h : w.read (s.path stage) = .ok bytes) :
    s.content w stage = some (decode stage bytes) := by
  rw [content, h]
  rfl

/-- A flawed file: reading tells the flaw, and where a missing file would do there is none. -/
structure Refuses (s : Store) (w : Workspace) (stage : Stage) (flaw : Flaw) : Prop where
  read : (s.read stage : ExceptT Fault (StateM Workspace) Snapshot).run.run w =
    (.error (.flawed (s.path stage) flaw), w)
  read? : (s.read? stage : StateM Workspace (Option Snapshot)).run w = (none, w)

theorem refuses_of_decode {bytes : List UInt8} {flaw : Flaw} (h : w.read (s.path stage) = .ok bytes)
    (flawed : decode stage bytes = .error flaw) : s.Refuses w stage flaw := by
  have shows := shows_content s w stage
  rw [content_of_read h, flawed] at shows
  obtain ⟨⟨answer, read, told⟩, read?, -⟩ := shows
  exact ⟨read.trans (congrArg (·, w) told), read?⟩

/-- Torn snapshots never load: where a stage has only a part of the file that was written for it,
however long that part is, reading ends with a flaw; and the file of a stage is refused as the file
of any other. -/
theorem refuses_torn (s : Store) (w : Workspace) (stage : Stage) (groups : Snapshot) :
    (∀ torn, torn <+: encode stage groups → torn ≠ encode stage groups →
      (groupsCodec.write groups).length < byteLimit → w.read (s.path stage) = .ok torn →
        s.Refuses w stage (tornFlaw groups torn.length)) ∧
    ∀ other, other ≠ stage → w.read (s.path other) = .ok (encode stage groups) →
      s.Refuses w other (.wrongStage other stage) := by
  constructor
  · intro torn cut strict fits held
    obtain ⟨part, shorter⟩ := eq_take cut strict
    have flawed := decode_take fits shorter
    rw [← part] at flawed
    exact refuses_of_decode held flawed
  · intro other different held
    exact refuses_of_decode held (decode_other different groups)

/-- A directory with a single snapshot file. -/
def lone (stage : Stage) (file : List UInt8) : Workspace :=
  { entries := [(["snaps"], .directory), (["snaps", fileName stage], .file file)] }

theorem read_lone (stage : Stage) (file : List UInt8) :
    (lone stage file).read (path ⟨"snaps"⟩ stage) = .ok file := by
  have short : (joinPath "snaps" (fileName stage)).utf8ByteSize ≤ Workspace.pathLimit := by
    cases stage <;> decide +kernel
  refine (Workspace.read_joinPath (plain_fileName stage)).mpr
    ⟨["snaps", fileName stage], ⟨short, _, leads_snaps _, rfl⟩, .inl ?_⟩
  cases stage <;> rfl

/-- Forty bytes of a file hold its header and a little of the groups; and the whole file of one
stage is no file of another. -/
theorem refuses_torn_forty :
    Refuses ⟨"snaps"⟩ (lone .placed ((encode .placed sampleGroups).take 40)) .placed
        (tornFlaw sampleGroups 40) ∧
      Refuses ⟨"snaps"⟩ (lone .final (encode .placed sampleGroups)) .final
        (.wrongStage .final .placed) := by
  have size : (groupsCodec.write sampleGroups).length = 145 := by decide +kernel
  have fits : (groupsCodec.write sampleGroups).length < byteLimit := by
    rw [size]
    decide
  have whole : (encode .placed sampleGroups).length = 177 := by
    rw [encode_eq, List.length_append, length_front, size]
  have length : ((encode .placed sampleGroups).take 40).length = 40 := by
    rw [List.length_take, whole]
    rfl
  have strict : (encode .placed sampleGroups).take 40 ≠ encode .placed sampleGroups := by
    intro same
    rw [same, whole] at length
    cases length
  have torn :=
    (refuses_torn ⟨"snaps"⟩ (lone .placed ((encode .placed sampleGroups).take 40)) .placed
      sampleGroups).1 _ (List.take_prefix ..) strict fits (read_lone ..)
  rw [length] at torn
  exact ⟨torn, (refuses_torn ⟨"snaps"⟩ (lone .final (encode .placed sampleGroups)) .placed
    sampleGroups).2 .final (by decide) (read_lone ..)⟩

end Store
end HardwareLinker.Snapshot
