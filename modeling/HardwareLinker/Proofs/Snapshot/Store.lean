import HardwareLinker.Snapshot.Store
import HardwareLinker.Proofs.Snapshot.Format
import HardwareLinker.Proofs.Workspace

/-!
The files of a store. What a stage holds is decided by the file in one place; staging, renaming and
removing change no other, and directories that are made on the way change none.
-/

namespace HardwareLinker.Snapshot.Store

open Workspace (Leads Looks destination Grown EditedAt)
open Route (Plain)

variable {s : Store} {w w' : Workspace} {stage : Stage} {name : String} {q : Place}

/-! ### Files of a store -/

theorem plain_fileName (stage : Stage) : Plain (fileName stage) := by
  cases stage <;> constructor <;> decide

theorem plain_stagingName (stage : Stage) : Plain (stagingName stage) := by
  cases stage <;> constructor <;> decide

theorem fileName_injective {stage other : Stage} (h : fileName stage = fileName other) :
    stage = other := by
  revert h
  cases stage <;> cases other <;> decide

theorem fileName_ne_stagingName (stage other : Stage) : fileName stage ≠ stagingName other := by
  cases stage <;> cases other <;> decide

/-- The place of a file, if the directory is there. -/
def placeOf (s : Store) (w : Workspace) (name : String) : Place :=
  destination w.home (.ofText s.directory) ++ [name]

theorem placeOf_injective {name' : String} (h : s.placeOf w name = s.placeOf w name') :
    name = name' := by
  simpa [placeOf] using h

theorem placeOf_congr (home : w'.home = w.home) (name : String) :
    s.placeOf w' name = s.placeOf w name := by
  rw [placeOf, home, placeOf]

/-- Nothing but the store puts files where its files belong: there is no device in their place, and
no snapshot where the directory would lead but does not. -/
structure Clean (s : Store) (w : Workspace) : Prop where
  file : ∀ stage, w.entry? (s.placeOf w (fileName stage)) ≠ some .void
  staging : ∀ stage, w.entry? (s.placeOf w (stagingName stage)) ≠ some .void
  reached : (∃ p, w.Leads (.ofText s.directory) p) ∨
    ∀ stage, w.fileAt (s.placeOf w (fileName stage)) = none

/-- What the file of a stage holds; none if there is no file. -/
def content (s : Store) (w : Workspace) (stage : Stage) : Option (Except Flaw Snapshot) :=
  (w.read (s.path stage)).toOption.map (decode stage)

theorem Clean.read_iff (clean : s.Clean w) {bytes : List UInt8} :
    w.read (s.path stage) = .ok bytes ↔ (s.path stage).utf8ByteSize ≤ Workspace.pathLimit ∧
      w.fileAt (s.placeOf w (fileName stage)) = some bytes := by
  unfold path
  rw [Workspace.read_joinPath (plain_fileName stage)]
  constructor
  · rintro ⟨q, looks, h⟩
    obtain rfl := looks.eq_destination
    obtain h | ⟨h, -⟩ := h
    · exact ⟨looks.short, Workspace.fileAt_eq_some.mpr h⟩
    · exact absurd h (clean.file stage)
  · rintro ⟨short, h⟩
    obtain ⟨p, hp⟩ := clean.reached.resolve_right fun none => by simp [none stage] at h
    refine ⟨p ++ [fileName stage], ⟨short, p, hp, rfl⟩, .inl ?_⟩
    rw [hp.eq_destination]
    exact Workspace.fileAt_eq_some.mp h

/-- A stage shows the same as long as its file is the same. -/
theorem content_congr (clean : s.Clean w) (clean' : s.Clean w') (home : w'.home = w.home)
    (h : w'.fileAt (s.placeOf w (fileName stage)) = w.fileAt (s.placeOf w (fileName stage))) :
    s.content w' stage = s.content w stage := by
  unfold content
  congr 1
  apply Option.ext
  intro bytes
  rw [toOption_eq_some, toOption_eq_some, clean.read_iff, clean'.read_iff, placeOf_congr home, h]

theorem content_of_file (looks : w.Looks s.directory (fileName stage) q) {bytes : List UInt8}
    (h : w.entry? q = some (.file bytes)) : s.content w stage = some (decode stage bytes) := by
  have read : w.read (s.path stage) = .ok bytes :=
    (Workspace.read_joinPath (plain_fileName stage)).mpr ⟨q, looks, .inl h⟩
  rw [content, read]
  rfl

theorem content_of_nothing (clean : s.Clean w)
    (h : w.fileAt (s.placeOf w (fileName stage)) = none) : s.content w stage = none := by
  rw [content, Option.map_eq_none_iff, Option.eq_none_iff_forall_ne_some]
  intro bytes hread
  have := (clean.read_iff.mp (toOption_eq_some.mp hread)).2
  rw [h] at this
  cases this

/-! ### Changes -/

theorem Clean.grown (clean : s.Clean w) (h : w.Grown w') : s.Clean w' := by
  have place := placeOf_congr (s := s) h.home
  have solid {p : Place} (hp : w.entry? p ≠ some .void) : w'.entry? p ≠ some .void := by
    obtain e | ⟨-, e⟩ := h.entries p <;> simp [e, hp]
  refine ⟨fun stage => place _ ▸ solid (clean.file stage),
    fun stage => place _ ▸ solid (clean.staging stage), ?_⟩
  obtain ⟨p, hp⟩ | nothing := clean.reached
  · exact .inl ⟨p, h.keeps.leads hp⟩
  · refine .inr fun stage => ?_
    rw [place, h.fileAt]
    exact nothing stage

theorem content_grown (clean : s.Clean w) (h : w.Grown w') (stage : Stage) :
    s.content w' stage = s.content w stage :=
  content_congr clean (clean.grown h) h.home h.fileAt

theorem Clean.edited (clean : s.Clean w) (looks : w.Looks s.directory name q)
    (edit : EditedAt w w' q) : s.Clean w' := by
  have place := placeOf_congr (s := s) edit.home
  obtain ⟨p, hp, -⟩ := looks.leads
  exact ⟨fun stage => place _ ▸ edit.ne nofun (clean.file stage),
    fun stage => place _ ▸ edit.ne nofun (clean.staging stage), .inl ⟨p, edit.keeps.leads hp⟩⟩

/-- A change in the place of another name. -/
theorem content_edited (clean : s.Clean w) (looks : w.Looks s.directory name q)
    (edit : EditedAt w w' q) (h : fileName stage ≠ name) :
    s.content w' stage = s.content w stage := by
  refine content_congr clean (clean.edited looks edit) edit.home (edit.fileAt ?_)
  obtain rfl := looks.eq_destination
  exact fun same => h (placeOf_injective same)

theorem write_edits (plain : Plain name) (solid : w.entry? (s.placeOf w name) ≠ some .void)
    {bytes : List UInt8} (h : w.write (joinPath s.directory name) bytes = .ok w') :
    ∃ q, w.Looks s.directory name q ∧ EditedAt w w' q ∧ w'.entry? q = some (.file bytes) := by
  obtain ⟨q, looks, free, rfl⟩ := (Workspace.write_joinPath plain).mp h
  obtain rfl := looks.eq_destination
  rw [placeOf] at solid
  rw [if_neg solid]
  exact ⟨_, looks, Workspace.editedAt_put free, by
    rw [Workspace.entry?_put (Workspace.ne_root free), if_pos rfl]⟩

theorem remove_edits (plain : Plain name) (h : w.remove (joinPath s.directory name) = .ok w') :
    ∃ q, w.Looks s.directory name q ∧ EditedAt w w' q ∧ w'.entry? q = none := by
  obtain ⟨q, looks, free, -, rfl⟩ := (Workspace.remove_joinPath plain).mp h
  exact ⟨q, looks, Workspace.editedAt_erase free, by
    rw [Workspace.entry?_erase (Workspace.ne_root free), if_pos rfl]⟩

/-- A staging file is not seen, however much of it is there. -/
theorem staged (clean : s.Clean w) {bytes : List UInt8}
    (h : w.write (s.stagingPath stage) bytes = .ok w') :
    s.Clean w' ∧ (∀ other, s.content w' other = s.content w other) ∧
      w'.read (s.stagingPath stage) = .ok bytes := by
  have plain := plain_stagingName stage
  obtain ⟨q, looks, edit, file⟩ := write_edits plain (clean.staging stage) h
  exact ⟨clean.edited looks edit,
    fun other => content_edited clean looks edit (fileName_ne_stagingName other stage),
    (Workspace.read_joinPath plain).mpr ⟨q, edit.keeps.looks looks, .inl file⟩⟩

theorem rename_edits (clean : s.Clean w) {bytes : List UInt8}
    (staging : w.read (s.stagingPath stage) = .ok bytes)
    (h : w.rename (s.stagingPath stage) (s.path stage) = .ok w') :
    ∃ w₁ q₁ q₂, w.Looks s.directory (stagingName stage) q₁ ∧ EditedAt w w₁ q₁ ∧
      w₁.Looks s.directory (fileName stage) q₂ ∧ EditedAt w₁ w' q₂ ∧
      w'.entry? q₂ = some (.file bytes) := by
  obtain ⟨bytes', hread, h⟩ := bind_eq_ok h
  obtain rfl := Except.ok.inj (staging.symm.trans hread)
  obtain ⟨w₁, hremove, h⟩ := bind_eq_ok h
  obtain ⟨q₁, looks₁, edit₁, -⟩ := remove_edits (plain_stagingName stage) hremove
  have clean₁ := clean.edited looks₁ edit₁
  obtain ⟨q₂, looks₂, edit₂, file⟩ := write_edits (plain_fileName stage) (clean₁.file stage) h
  exact ⟨w₁, q₁, q₂, looks₁, edit₁, looks₂, edit₂, file⟩

/-- A staging file that is renamed is the file of its stage. -/
theorem renamed (clean : s.Clean w) {bytes : List UInt8}
    (staging : w.read (s.stagingPath stage) = .ok bytes)
    (h : w.rename (s.stagingPath stage) (s.path stage) = .ok w') :
    s.Clean w' ∧ s.content w' stage = some (decode stage bytes) ∧
      ∀ other, other ≠ stage → s.content w' other = s.content w other := by
  obtain ⟨w₁, q₁, q₂, looks₁, edit₁, looks₂, edit₂, file⟩ := rename_edits clean staging h
  have clean₁ := clean.edited looks₁ edit₁
  refine ⟨clean₁.edited looks₂ edit₂, content_of_file (edit₂.keeps.looks looks₂) file,
    fun other hne => ?_⟩
  rw [content_edited clean₁ looks₂ edit₂ fun e => hne (fileName_injective e),
    content_edited clean looks₁ edit₁ (fileName_ne_stagingName other stage)]

theorem removed (clean : s.Clean w) (h : w.remove (s.path stage) = .ok w') :
    s.Clean w' ∧ s.content w' stage = none ∧
      ∀ other, other ≠ stage → s.content w' other = s.content w other := by
  obtain ⟨q, looks, edit, nothing⟩ := remove_edits (plain_fileName stage) h
  have clean' := clean.edited looks edit
  refine ⟨clean', content_of_nothing clean' ?_, fun other hne =>
    content_edited clean looks edit fun e => hne (fileName_injective e)⟩
  obtain rfl := looks.eq_destination
  rw [placeOf, edit.home, Workspace.fileAt, nothing]

/-- Where nothing can be removed, there is no file. -/
theorem content_of_not_removed {e : IoFault}
    (h : w.remove (s.path stage) = .error e) : s.content w stage = none := by
  rw [content, Option.map_eq_none_iff, Option.eq_none_iff_forall_ne_some]
  intro bytes hread
  obtain ⟨q, looks, there⟩ :=
    (Workspace.read_joinPath (plain_fileName stage)).mp (toOption_eq_some.mp hread)
  obtain ⟨w', hw'⟩ : ∃ w', w.remove (s.path stage) = .ok w' := by
    refine ⟨_, (Workspace.remove_joinPath (plain_fileName stage)).mpr ⟨q, looks, ?_, ?_, rfl⟩⟩ <;>
      obtain there | ⟨there, -⟩ := there <;> simp [there]
  rw [h] at hw'
  cases hw'

/-! ### Stores that take writes -/

/-- The directory is there, and nothing stands in the way of the files. -/
structure Ready (s : Store) (w : Workspace) : Prop extends Clean s w where
  led : ∃ p, w.Leads (.ofText s.directory) p
  short : ∀ stage, (s.stagingPath stage).utf8ByteSize ≤ Workspace.pathLimit
  freeFile : ∀ stage, w.entry? (s.placeOf w (fileName stage)) ≠ some .directory
  freeStaging : ∀ stage, w.entry? (s.placeOf w (stagingName stage)) ≠ some .directory

theorem Ready.edited (ready : s.Ready w) (looks : w.Looks s.directory name q)
    (edit : EditedAt w w' q) : s.Ready w' := by
  have place := placeOf_congr (s := s) edit.home
  obtain ⟨p, hp⟩ := ready.led
  exact
    { ready.toClean.edited looks edit with
      led := ⟨p, edit.keeps.leads hp⟩
      short := ready.short
      freeFile := fun stage => place _ ▸ edit.ne nofun (ready.freeFile stage)
      freeStaging := fun stage => place _ ▸ edit.ne nofun (ready.freeStaging stage) }

/-- The names of its files. -/
def Owns (name : String) : Prop := ∃ stage, name = fileName stage ∨ name = stagingName stage

/-- Files of the store have been changed, one after another. -/
inductive Edits (s : Store) (w : Workspace) : Workspace → Prop
  | none : Edits s w w
  | next {w₁ w₂ : Workspace} {name : String} {q : Place} (before : Edits s w w₁) (own : Owns name)
    (looks : w₁.Looks s.directory name q) (edit : EditedAt w₁ w₂ q) : Edits s w w₂

theorem Edits.keeps (h : s.Edits w w') : w.Keeps w' := by
  induction h with
  | none => exact .refl w
  | next _ _ _ edit ih => exact ih.trans edit.keeps

theorem Edits.ready (h : s.Edits w w') (ready : s.Ready w) : s.Ready w' := by
  induction h with
  | none => exact ready
  | next _ _ looks edit ih => exact ih.edited looks edit

/-- What is not in the place of one of its files stays as it is. -/
theorem Edits.others (h : s.Edits w w') {p : Place}
    (apart : ∀ name, Owns name → p ≠ s.placeOf w name) : w'.entry? p = w.entry? p := by
  induction h with
  | none => rfl
  | next before own looks edit ih =>
      rw [edit.others, ih]
      rw [looks.eq_destination, before.keeps.home]
      exact apart _ own

theorem utf8ByteSize_path_le (s : Store) (stage : Stage) :
    (s.path stage).utf8ByteSize ≤ (s.stagingPath stage).utf8ByteSize := by
  have names : (fileName stage).utf8ByteSize ≤ (stagingName stage).utf8ByteSize := by
    cases stage <;> decide
  unfold path stagingPath joinPath
  split <;> simp only [String.utf8ByteSize_append] <;> omega

theorem Ready.looks (ready : s.Ready w) (h : (joinPath s.directory name).utf8ByteSize ≤
    Workspace.pathLimit) : w.Looks s.directory name (s.placeOf w name) := by
  obtain ⟨p, hp⟩ := ready.led
  exact ⟨h, p, hp, by rw [placeOf, hp.eq_destination]⟩

theorem Ready.shortDirectory (ready : s.Ready w) :
    s.directory.utf8ByteSize ≤ Workspace.pathLimit := by
  refine Nat.le_trans ?_ (ready.short .final)
  unfold stagingPath joinPath
  split <;> simp only [String.utf8ByteSize_append] <;> omega

theorem Ready.write (ready : s.Ready w) (plain : Plain name)
    (short : (joinPath s.directory name).utf8ByteSize ≤ Workspace.pathLimit)
    (free : w.entry? (s.placeOf w name) ≠ some .directory)
    (solid : w.entry? (s.placeOf w name) ≠ some .void) (bytes : List UInt8) :
    ∃ w', w.write (joinPath s.directory name) bytes = .ok w' ∧ s.Ready w' := by
  have looks := ready.looks short
  exact ⟨w.put (s.placeOf w name) (.file bytes),
    (Workspace.write_joinPath plain).mpr ⟨_, looks, free, (if_neg solid).symm⟩,
    ready.edited looks (Workspace.editedAt_put free)⟩

/-- Any bytes can be staged. -/
theorem Ready.writeStaging (ready : s.Ready w) (stage : Stage) (bytes : List UInt8) :
    ∃ w', w.write (s.stagingPath stage) bytes = .ok w' ∧ s.Ready w' :=
  ready.write (plain_stagingName stage) (ready.short stage) (ready.freeStaging stage)
    (ready.staging stage) bytes

/-- What is staged can be renamed. -/
theorem Ready.renameStaging (ready : s.Ready w) {bytes : List UInt8}
    (staged : w.read (s.stagingPath stage) = .ok bytes) :
    ∃ w', w.rename (s.stagingPath stage) (s.path stage) = .ok w' ∧ s.Ready w' := by
  obtain ⟨q, looks, there⟩ := (Workspace.read_joinPath (plain_stagingName stage)).mp staged
  have found : w.entry? q ≠ some .directory ∧ w.entry? q ≠ none := by
    obtain there | ⟨there, -⟩ := there <;> simp [there]
  have removed : w.remove (s.stagingPath stage) = .ok (w.erase q) :=
    (Workspace.remove_joinPath (plain_stagingName stage)).mpr ⟨q, looks, found.1, found.2, rfl⟩
  have ready₁ := ready.edited looks (Workspace.editedAt_erase found.1)
  obtain ⟨w', written, ready'⟩ := ready₁.write (plain_fileName stage)
    (Nat.le_trans (utf8ByteSize_path_le s stage) (ready.short stage)) (ready₁.freeFile stage)
    (ready₁.file stage) bytes
  refine ⟨w', ?_, ready'⟩
  unfold Workspace.rename
  rw [staged]
  change (w.remove (s.stagingPath stage) >>= _) = _
  rw [removed]
  exact written

end HardwareLinker.Snapshot.Store
