import Mathlib.Order.Defs.Unbundled
import HardwareLinker.Proofs.Snapshot.Operations
import HardwareLinker.Proofs.Workspace.Runs

/-!
Operations on a store as parts of longer runs: what they leave in it, and that a store that is ready
refuses none of them. A file outside the store is read as before. What a whole program does to the
store is told by a preorder that each of its parts keeps to.
-/

namespace HardwareLinker.Snapshot.Store

open Workspace (Looks)

variable {s : Store} {w w' : Workspace} {stage : Stage}

/-! ### What else a run changes -/

theorem content_sameFiles (h : SameFiles w w') (stage : Stage) :
    s.content w' stage = s.content w stage := by
  rw [content, h.read, content]

theorem Clean.sameFiles (clean : s.Clean w) (h : SameFiles w w') : s.Clean w' := by
  obtain ⟨printed, reported, rfl⟩ := h
  exact ⟨clean.file, clean.staging, clean.reached⟩

theorem Ready.sameFiles (ready : s.Ready w) (h : SameFiles w w') : s.Ready w' := by
  have clean := ready.toClean.sameFiles h
  obtain ⟨printed, reported, rfl⟩ := h
  exact ⟨clean, ready.led, ready.short, ready.freeFile, ready.freeStaging⟩

/-- A change in a place that is none of the store's. -/
theorem Clean.editedApart {q : Place} (clean : s.Clean w) (edit : Workspace.EditedAt w w' q)
    (apart : ∀ own, Owns own → q ≠ s.placeOf w own) :
    s.Clean w' ∧ ∀ stage, s.content w' stage = s.content w stage := by
  have place := placeOf_congr (s := s) edit.home
  have file (stage : Stage) : w'.fileAt (s.placeOf w (fileName stage)) =
      w.fileAt (s.placeOf w (fileName stage)) := edit.fileAt (apart _ ⟨stage, .inl rfl⟩).symm
  have clean' : s.Clean w' :=
    { file := fun stage => place _ ▸ edit.ne nofun (clean.file stage)
      staging := fun stage => place _ ▸ edit.ne nofun (clean.staging stage)
      reached := by
        refine clean.reached.imp (fun ⟨p, led⟩ => ⟨p, edit.keeps.leads led⟩) fun nothing stage => ?_
        rw [place, file]
        exact nothing stage }
  exact ⟨clean', fun stage => content_congr clean clean' edit.home (file stage)⟩

/-! ### Writing -/

theorem sound_attempt {β : Type} {path : String} {action : StateM Workspace (Except IoFault β)}
    {frail : Frail (Except IoFault β)} (h : Sound action frail) :
    Sound (attempt path action).run (attempt path frail).run :=
  h.bind fun _ => .pure _

theorem sound_write (s : Store) (stage : Stage) (groups : Snapshot) :
    Sound (s.write stage groups).run (s.write stage groups).run :=
  .bindExcept (sound_attempt fun _ => .done) fun _ =>
    .bindExcept (sound_attempt fun _ => .done) fun _ =>
      .bindExcept (sound_attempt fun _ => .done) fun _ => .pure _

/-- A write leaves the other stages as they were; a store that is ready does not refuse it. -/
structure Written (s : Store) (w : Workspace) (stage : Stage) (groups : Snapshot)
    (answer : Except Fault String) (w' : Workspace) : Prop where
  clean : s.Clean w'
  others : ∀ other, other ≠ stage → s.content w' other = s.content w other
  failed : ∀ e, answer = .error e → s.content w' stage = s.content w stage
  stored :
    ∀ path, answer = .ok path → s.content w' stage = some (decode stage (encode stage groups))
  ready : s.Ready w → s.Ready w' ∧ answer = .ok (s.path stage)

theorem written_of_ends {groups : Snapshot} {answer : Except Fault String} (clean : s.Clean w)
    (h : Ends (s.write stage groups) w answer w') : s.Written w stage groups answer w' := by
  have may := (sound_write s stage groups).ends h
  obtain ⟨clean', others, ended⟩ := contents_of_write clean may
  refine ⟨clean', others, ?_, ?_, fun ready => ?_⟩
  · rintro e rfl
    obtain ⟨-, same⟩ | ⟨y, succeeded, -⟩ := ended
    · exact same
    · cases succeeded
  · rintro path rfl
    obtain ⟨failed, -⟩ | ⟨y, -, stored⟩ := ended
    · exact absurd rfl (failed path)
    · exact stored
  · obtain ⟨w₁, ran, performed⟩ := ready.write_succeeds stage groups
    obtain ⟨rfl, rfl⟩ := Ends.unique h ran
    exact ⟨Operation.ready_of_perform ready performed, rfl⟩

/-- A file that is none of the store is read as before. -/
theorem Ready.read_of_write (ready : s.Ready w) {groups : Snapshot} {answer : Except Fault String}
    (h : Ends (s.write stage groups) w answer w') {directory name : String} {q : Place}
    (plain : Route.Plain name) (looks : w.Looks directory name q)
    (apart : ∀ own, Owns own → q ≠ s.placeOf w own) {bytes : List UInt8}
    (file : w.entry? q = some (.file bytes)) : w'.read (joinPath directory name) = .ok bytes := by
  have edits := edits_of_write ready ((sound_write s stage groups).ends h)
  refine (Workspace.read_joinPath plain).mpr ⟨q, edits.keeps.looks looks, .inl ?_⟩
  rw [edits.others apart, file]

/-! ### Removing -/

theorem sound_remove (s : Store) (stage : Stage) :
    Sound (s.remove stage).run (s.remove stage).run := by
  refine .bindExcept (Sound.map _ fun _ => .done) fun answer => ?_
  cases answer with
  | ok => exact fun _ => ⟨rfl, rfl⟩
  | error cause => cases cause <;> exact fun _ => ⟨rfl, rfl⟩

/-- The machine finds a file to remove, or tells that there is none. -/
theorem Ready.removes (ready : s.Ready w) (stage : Stage) :
    (∃ w', w.remove (s.path stage) = .ok w') ∨ w.remove (s.path stage) = .error .notFound := by
  have plain := plain_fileName stage
  have looks : w.Looks s.directory (fileName stage) (s.placeOf w (fileName stage)) :=
    ready.looks (Nat.le_trans (utf8ByteSize_path_le s stage) (ready.short stage))
  by_cases there : w.entry? (s.placeOf w (fileName stage)) = none
  · right
    unfold Workspace.remove path
    rw [(Workspace.routeOf_joinPath plain).mpr ⟨looks.short, rfl⟩]
    change (w.walk _ >>= _) = _
    rw [(Workspace.walk_joinPath plain).mpr looks.leads]
    simp only [bind, Except.bind, there]
    rfl
  · exact .inl ⟨_, (Workspace.remove_joinPath plain).mpr
      ⟨_, looks, ready.freeFile stage, there, rfl⟩⟩

/-- A removal leaves the other stages as they were; a store that is ready does not refuse it. -/
structure Removed (s : Store) (w : Workspace) (stage : Stage) (answer : Except Fault Bool)
    (w' : Workspace) : Prop where
  clean : s.Clean w'
  others : ∀ other, other ≠ stage → s.content w' other = s.content w other
  failed : ∀ e, answer = .error e → s.content w' stage = s.content w stage
  gone : ∀ found, answer = .ok found → s.content w' stage = none
  ready : s.Ready w → s.Ready w' ∧ ∃ found, answer = .ok found

/-- What a removal tells, by what the machine answers. -/
def removal (s : Store) (stage : Stage) : Except IoFault Unit → Except Fault Bool
  | .ok _ => .ok true
  | .error .notFound => .ok false
  | .error cause => .error (.io (s.path stage) cause)

theorem ends_remove {answer : Except IoFault Unit}
    (h : (Host.remove (s.path stage) : StateM Workspace _) w = (answer, w')) :
    Ends (s.remove stage) w (s.removal stage answer) w' := by
  have asked : Ends (ExceptT.lift (Host.remove (s.path stage)) : ExceptT Fault (StateM Workspace) _)
      w (.ok answer) w' := by
    rw [ends_lift]
    change _ = Except.ok ((Host.remove (s.path stage) : StateM Workspace _) w).1 ∧
      _ = ((Host.remove (s.path stage) : StateM Workspace _) w).2
    rw [h]
    exact ⟨rfl, rfl⟩
  refine asked.bind ?_
  cases answer with
  | ok => rfl
  | error cause => cases cause <;> rfl

/-- Where the machine refuses to remove a file, there is none to be seen. -/
theorem content_of_remove_error {fault : Fault} (h : Ends (s.remove stage) w (.error fault) w') :
    s.content w stage = none := by
  cases tried : w.remove (s.path stage) with
  | ok w₁ => cases (h.unique (ends_remove (Workspace.change_of_ok tried))).1
  | error cause => exact content_of_not_removed tried

theorem removed_of_ends {answer : Except Fault Bool} (clean : s.Clean w)
    (h : Ends (s.remove stage) w answer w') : s.Removed w stage answer w' := by
  have may := (sound_remove s stage).ends h
  obtain ⟨clean', effect⟩ := Operation.effect_of_remove clean may
  refine ⟨clean', fun other hne => ?_, ?_, ?_, fun ready => ?_⟩
  · rw [effect]
    cases (some answer).map Except.isOk == some true with
    | false => rfl
    | true => exact if_neg (Ne.symm hne)
  · rintro e rfl
    rw [effect]
    rfl
  · rintro found rfl
    rw [effect]
    exact if_pos rfl
  · obtain ⟨w₁, gone⟩ | missing := ready.removes stage
    · obtain ⟨rfl, rfl⟩ := h.unique (ends_remove (Workspace.change_of_ok gone))
      obtain ⟨q, looks, edit, -⟩ := remove_edits (plain_fileName stage) gone
      exact ⟨ready.edited looks edit, true, rfl⟩
    · obtain ⟨rfl, rfl⟩ := h.unique (ends_remove (Workspace.change_of_error missing))
      exact ⟨ready, false, rfl⟩

/-- Whatever comes of a removal, there is nothing to be seen of its stage. -/
theorem content_of_ends_remove {answer : Except Fault Bool} (clean : s.Clean w)
    (h : Ends (s.remove stage) w answer w') : s.content w' stage = none := by
  have removed := removed_of_ends clean h
  cases answer with
  | error fault => exact (removed.failed fault rfl).trans (content_of_remove_error h)
  | ok found => exact removed.gone found rfl

/-! ### Programs -/

/-- What all stages hold. -/
abbrev Contents := Stage → Option (Except Flaw Snapshot)

/-- Started on a clean store, a program leaves it clean; what the stages hold then and what they
held before are related. -/
def Turns {ε β : Type} (s : Store) (R : Contents → Contents → Prop)
    (program : ExceptT ε (StateM Workspace) β) : Prop :=
  ∀ ⦃w result w'⦄, Ends program w result w' → s.Clean w →
    s.Clean w' ∧ R (s.content w) (s.content w')

section

variable {ε ε' β γ : Type} {R : Contents → Contents → Prop} [IsPreorder Contents R]

theorem turns_of_same {program : ExceptT ε (StateM Workspace) β}
    (same : ∀ ⦃w result w'⦄, Ends program w result w' → SameFiles w w') : s.Turns R program := by
  intro w result w' ran clean
  have untouched := same ran
  refine ⟨clean.sameFiles untouched, ?_⟩
  rw [funext (content_sameFiles untouched)]
  exact refl_of R _

theorem turns_of_reads {program : ExceptT ε (StateM Workspace) β} (reads : Reads program.run) :
    s.Turns R program :=
  turns_of_same fun _ _ _ ran => reads.eq ran ▸ ⟨_, _, rfl⟩

theorem Turns.bind {program : ExceptT ε (StateM Workspace) β}
    {rest : β → ExceptT ε (StateM Workspace) γ} (h : s.Turns R program)
    (h' : ∀ x, s.Turns R (rest x)) : s.Turns R (program >>= rest) := by
  intro w result w' ran clean
  obtain ⟨x, w₁, first, later⟩ | ⟨e, first, -⟩ := ends_bind.mp ran
  · obtain ⟨clean₁, turned⟩ := h first clean
    obtain ⟨clean', turned'⟩ := h' x later clean₁
    exact ⟨clean', trans_of R turned turned'⟩
  · exact h first clean

omit [IsPreorder Contents R] in
theorem Turns.adapt {program : ExceptT ε (StateM Workspace) β} {f : ε → ε'}
    (h : s.Turns R program) : s.Turns R (program.adapt f) := by
  intro w result w' ran
  obtain ⟨answer, ran, -⟩ := ends_adapt.mp ran
  exact h ran

theorem turns_write {groups : Snapshot}
    (stored : ∀ held, R held (Function.update held stage
      (some (decode stage (encode stage groups))))) :
    s.Turns R (s.write stage groups) := by
  intro w answer w' ran clean
  have written := written_of_ends clean ran
  refine ⟨written.clean, ?_⟩
  cases answer with
  | error fault =>
      have same : s.content w' = s.content w := by
        funext other
        by_cases own : other = stage
        · exact own ▸ written.failed fault rfl
        · exact written.others other own
      rw [same]
      exact refl_of R _
  | ok path =>
      have turned := Function.eq_update_iff.mpr ⟨written.stored path rfl, written.others⟩
      rw [turned]
      exact stored _

end

end HardwareLinker.Snapshot.Store
