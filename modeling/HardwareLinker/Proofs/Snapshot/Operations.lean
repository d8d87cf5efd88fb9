import HardwareLinker.Proofs.Snapshot.Store
import HardwareLinker.Proofs.Workspace.Frail

/-!
A store is a map from stages to groups. Whatever operations are tried and however they end, a stage
shows the groups that were last written for it, unless they have been removed since; and what is not
written to its end is not seen.
-/

namespace HardwareLinker.Snapshot.Store

open Workspace (Grown)

variable {s : Store} {w w' : Workspace} {stage : Stage}

/-! ### Operations -/

/-- What can be asked of a store. -/
inductive Operation where
  | write (stage : Stage) (groups : Snapshot)
  | remove (stage : Stage)
  | read (stage : Stage)
  | read? (stage : Stage)
  | holds (stage : Stage)

namespace Operation

/-- Carries out an operation, and tells whether it has succeeded. -/
def perform (s : Store) : Operation → Frail Bool
  | write stage groups => return (← (s.write stage groups).run).isOk
  | remove stage => return (← (s.remove stage).run).isOk
  | read stage => return (← (s.read stage).run).isOk
  | read? stage => return (← s.read? stage).isSome
  | holds stage => s.holds stage

/-- The bytes of what is written can be counted. -/
def Fits : Operation → Prop
  | write _ groups => (groupsCodec.write groups).length < Codec.byteLimit
  | _ => True

/-- What a stage holds after an operation, by what it held before and whether the operation has
succeeded. -/
def effect (stage : Stage) (before : Option (Except Flaw Snapshot)) :
    Operation × Bool → Option (Except Flaw Snapshot)
  | (write written groups, true) => if written = stage then some (.ok groups) else before
  | (remove removed, true) => if removed = stage then none else before
  | _ => before

end Operation

theorem attempt_ends {β γ : Type} {path : String} {action : Frail (Except IoFault β)}
    {rest : β → ExceptT Fault Frail γ} {result : Option (Except Fault γ)}
    (h : (attempt path action >>= rest).run w result w') :
    (∃ x w₁, action w (some (.ok x)) w₁ ∧ (rest x).run w₁ result w') ∨
      (∃ answer, action w answer w' ∧ ∀ x, answer ≠ some (.ok x)) ∧ ∀ y, result ≠ some (.ok y) := by
  rcases h with ⟨x, w₁, ⟨answer, w₂, hanswer, hx, rfl⟩ | ⟨-, hx⟩, h⟩ |
    ⟨⟨answer, w₂, -, hx, -⟩ | ⟨hanswer, -⟩, rfl⟩
  · obtain rfl := Option.some.inj hx
    cases answer with
    | ok x => exact .inl ⟨x, w₁, hanswer, h⟩
    | error e =>
        obtain ⟨rfl, rfl⟩ := h
        exact .inr ⟨⟨_, hanswer, nofun⟩, nofun⟩
  · cases hx
  · cases hx
  · exact .inr ⟨⟨none, hanswer, nofun⟩, nofun⟩

theorem attempt_goesOn {β γ : Type} {path : String} {action : Frail (Except IoFault β)}
    {rest : β → ExceptT Fault Frail γ} {result : Option (Except Fault γ)} {x : β} {w₁ : Workspace}
    (h : action w (some (.ok x)) w₁) (h' : (rest x).run w₁ result w') :
    (attempt path action >>= rest).run w result w' :=
  .inl ⟨.ok x, w₁, .inl ⟨.ok x, w₁, h, rfl, rfl⟩, h'⟩

theorem attempt_stops {β γ : Type} {path : String} {action : Frail (Except IoFault β)}
    {rest : β → ExceptT Fault Frail γ} (h : action w none w') :
    (attempt path action >>= rest).run w none w' :=
  .inr ⟨.inr ⟨h, rfl⟩, rfl⟩

/-- A write has made directories, or staged some bytes besides, or has come to its end. -/
theorem write_ends {groups : Snapshot} {result : Option (Except Fault String)}
    (h : (s.write stage groups : ExceptT Fault Frail String).run w result w') :
    ∃ answer w₁, (Host.makeDirectories s.directory : Frail _) w answer w₁ ∧
      ((w' = w₁ ∨ ∃ bytes, w₁.write (s.stagingPath stage) bytes = .ok w') ∧
          (∀ y, result ≠ some (.ok y)) ∨
        ∃ w₂, w₁.write (s.stagingPath stage) (encode stage groups) = .ok w₂ ∧
          w₂.rename (s.stagingPath stage) (s.path stage) = .ok w' ∧
          ∃ y, result = some (.ok y)) := by
  obtain ⟨⟨⟩, w₁, made, h⟩ | ⟨⟨answer, made, -⟩, failed⟩ := attempt_ends h
  · refine ⟨_, w₁, made, ?_⟩
    obtain ⟨⟨⟩, w₂, written, h⟩ | ⟨⟨answer, written, unwritten⟩, failed⟩ := attempt_ends h
    · obtain ⟨-, staged⟩ | ⟨unwritten, -⟩ := Frail.write_ends written
      · obtain ⟨⟨⟩, w₃, moved, rfl, rfl⟩ | ⟨⟨answer, moved, unmoved⟩, failed⟩ := attempt_ends h
        · obtain ⟨-, moved⟩ | ⟨unmoved, -⟩ := Frail.rename_ends moved
          · exact .inr ⟨w₂, staged, moved, _, rfl⟩
          · exact absurd rfl (unmoved ())
        · obtain ⟨hanswer, -⟩ | ⟨-, rfl⟩ := Frail.rename_ends moved
          · exact absurd hanswer (unmoved ())
          · exact .inl ⟨.inr ⟨_, staged⟩, failed⟩
      · exact absurd rfl (unwritten ())
    · obtain ⟨hanswer, -⟩ | ⟨-, part⟩ := Frail.write_ends written
      · exact absurd hanswer (unwritten ())
      · exact .inl ⟨part, failed⟩
  · exact ⟨answer, w', made, .inl ⟨.inl rfl, failed⟩⟩

/-- A removal has removed the file, or has found none, or has not succeeded. -/
theorem remove_ends {result : Option (Except Fault Bool)}
    (h : (s.remove stage : ExceptT Fault Frail Bool).run w result w') :
    w.remove (s.path stage) = .ok w' ∧ (∃ y, result = some (.ok y)) ∨
      w' = w ∧ (w.remove (s.path stage) = .error .notFound ∨ ∀ y, result ≠ some (.ok y)) := by
  rcases h with ⟨x, w₁, ⟨answer, w₂, hremove, hx, rfl⟩ | ⟨-, hx⟩, h⟩ |
    ⟨⟨answer, w₂, -, hx, -⟩ | ⟨hremove, -⟩, rfl⟩
  · obtain rfl := Option.some.inj hx
    obtain ⟨hanswer, removed⟩ | ⟨failed, rfl, missing⟩ := Frail.remove_ends hremove
    · obtain rfl := Option.some.inj hanswer
      obtain ⟨rfl, rfl⟩ := h
      exact .inl ⟨removed, _, rfl⟩
    · cases answer with
      | ok x => exact absurd rfl (failed x)
      | error e =>
          refine .inr ?_
          by_cases he : e = .notFound
          · subst he
            obtain ⟨-, rfl⟩ := h
            exact ⟨rfl, .inl (missing rfl)⟩
          · have h : result = some (.error (.io (s.path stage) e)) ∧ w' = w₁ := by
              cases e <;> first | exact absurd rfl he | exact h
            exact ⟨h.2, .inr fun y hy => by cases h.1.symm.trans hy⟩
  · cases hx
  · cases hx
  · obtain ⟨hanswer, -⟩ | ⟨-, rfl, -⟩ := Frail.remove_ends hremove
    · cases hanswer
    · exact .inr ⟨rfl, .inr nofun⟩

theorem eq_of_read {result : Option (Except Fault Snapshot)}
    (h : (s.read stage : ExceptT Fault Frail Snapshot).run w result w') : w' = w := by
  obtain ⟨bytes, w₁, hread, -, rfl⟩ | ⟨⟨answer, hread, -⟩, -⟩ := attempt_ends h
  · exact Frail.eq_of_read hread
  · exact Frail.eq_of_read hread

theorem not_succeeded {β ε : Type} {answer : Option (Except ε β)}
    (h : ∀ y, answer ≠ some (.ok y)) : (answer.map Except.isOk == some true) = false := by
  rcases answer with - | ⟨e | y⟩
  · rfl
  · rfl
  · exact absurd rfl (h y)

/-- A write leaves the other stages as they were, and its own as well unless it succeeds. -/
theorem contents_of_write {groups : Snapshot} {result : Option (Except Fault String)}
    (clean : s.Clean w) (h : (s.write stage groups : ExceptT Fault Frail String).run w result w') :
    s.Clean w' ∧ (∀ other, other ≠ stage → s.content w' other = s.content w other) ∧
      ((∀ y, result ≠ some (.ok y)) ∧ s.content w' stage = s.content w stage ∨
        ∃ y, result = some (.ok y) ∧
          s.content w' stage = some (decode stage (encode stage groups))) := by
  obtain ⟨answer, w₁, made, h⟩ := write_ends h
  have grown := Frail.grown_of_makeDirectories made
  have clean₁ := clean.grown grown
  have same₁ := content_grown clean grown
  obtain ⟨rfl | ⟨bytes, part⟩, failed⟩ | ⟨w₂, whole, moved, ended⟩ := h
  · exact ⟨clean₁, fun other _ => same₁ other, .inl ⟨failed, same₁ stage⟩⟩
  · obtain ⟨clean', same, -⟩ := staged clean₁ part
    have same' (other : Stage) := (same other).trans (same₁ other)
    exact ⟨clean', fun other _ => same' other, .inl ⟨failed, same' stage⟩⟩
  · obtain ⟨clean₂, same, bytes⟩ := staged clean₁ whole
    obtain ⟨clean', stored, others⟩ := renamed clean₂ bytes moved
    obtain ⟨y, rfl⟩ := ended
    refine ⟨clean', fun other hne => ?_, .inr ⟨y, rfl, stored⟩⟩
    rw [others other hne, same, same₁]

/-- Whatever comes of a write, only files of the store have been changed. -/
theorem edits_of_write {groups : Snapshot} {result : Option (Except Fault String)}
    (ready : s.Ready w) (h : (s.write stage groups : ExceptT Fault Frail String).run w result w') :
    s.Edits w w' := by
  obtain ⟨answer, w₁, made, came⟩ := write_ends h
  obtain ⟨p, led⟩ := ready.led
  obtain rfl := Frail.eq_of_makeDirectories led ready.shortDirectory made
  have staging {bytes : List UInt8} {w' : Workspace}
      (hstaged : w₁.write (s.stagingPath stage) bytes = .ok w') : s.Edits w₁ w' := by
    obtain ⟨q, looks, edit, -⟩ :=
      write_edits (plain_stagingName stage) (ready.staging stage) hstaged
    exact .next .none ⟨stage, .inr rfl⟩ looks edit
  obtain ⟨rfl | ⟨bytes, hstaged⟩, -⟩ | ⟨w₂, whole, moved, -⟩ := came
  · exact .none
  · exact staging hstaged
  · obtain ⟨clean₂, -, bytes⟩ := staged ready.toClean whole
    obtain ⟨w₃, q₃, q₄, looks₃, edit₃, looks₄, edit₄, -⟩ := rename_edits clean₂ bytes moved
    exact ((staging whole).next ⟨stage, .inr rfl⟩ looks₃ edit₃).next ⟨stage, .inl rfl⟩ looks₄ edit₄

namespace Operation

theorem effect_of_write {written : Stage} {groups : Snapshot} (clean : s.Clean w)
    (fits : (write written groups).Fits) {result : Option (Except Fault String)}
    (h : (s.write written groups : ExceptT Fault Frail String).run w result w') :
    s.Clean w' ∧ ∀ stage, s.content w' stage = effect stage (s.content w stage)
      (write written groups, result.map Except.isOk == some true) := by
  obtain ⟨clean', others, ⟨failed, same⟩ | ⟨y, rfl, stored⟩⟩ := contents_of_write clean h
  · rw [not_succeeded failed]
    refine ⟨clean', fun stage => ?_⟩
    by_cases own : stage = written
    · exact own ▸ same
    · exact others stage own
  · refine ⟨clean', fun stage => ?_⟩
    change _ = if written = stage then some (.ok groups) else s.content w stage
    split
    · next own =>
      subst own
      rw [stored, decode_encode _ groups fits]
    · next other => exact others stage (Ne.symm other)

theorem effect_of_remove {removed : Stage} (clean : s.Clean w) {result : Option (Except Fault Bool)}
    (h : (s.remove removed : ExceptT Fault Frail Bool).run w result w') :
    s.Clean w' ∧ ∀ stage, s.content w' stage =
      effect stage (s.content w stage) (remove removed, result.map Except.isOk == some true) := by
  obtain ⟨gone, y, rfl⟩ | ⟨rfl, missing | failed⟩ := remove_ends h
  · obtain ⟨clean', nothing, others⟩ := Store.removed clean gone
    refine ⟨clean', fun stage => ?_⟩
    change _ = if removed = stage then none else s.content w stage
    split
    · next own => exact own ▸ nothing
    · next other => exact others stage (Ne.symm other)
  · -- There was no file, so it makes no difference whether this counts as a success.
    refine ⟨clean, fun stage => ?_⟩
    cases result.map Except.isOk == some true with
    | false => rfl
    | true =>
        change _ = if removed = stage then none else s.content _ stage
        split
        · next own => exact own ▸ content_of_not_removed missing
        · rfl
  · rw [not_succeeded failed]
    exact ⟨clean, fun _ => rfl⟩

/-- An operation changes what its own stage holds, if it is to change it and succeeds, and nothing
else. -/
theorem effect_of_perform {op : Operation} (clean : s.Clean w) (fits : op.Fits)
    {result : Option Bool} (h : op.perform s w result w') :
    s.Clean w' ∧
      ∀ stage, s.content w' stage = effect stage (s.content w stage) (op, result == some true) := by
  cases op with
  | write written groups =>
      obtain ⟨answer, ends, rfl⟩ := Frail.map_ends h
      exact effect_of_write clean fits ends
  | remove removed =>
      obtain ⟨answer, ends, rfl⟩ := Frail.map_ends h
      exact effect_of_remove clean ends
  | read looked =>
      obtain ⟨answer, ends, -⟩ := Frail.map_ends h
      obtain rfl := eq_of_read ends
      exact ⟨clean, fun _ => rfl⟩
  | read? looked =>
      obtain ⟨answer, ends, -⟩ := Frail.map_ends h
      obtain ⟨answer, ends, -⟩ := Frail.map_ends ends
      obtain rfl := eq_of_read ends
      exact ⟨clean, fun _ => rfl⟩
  | holds looked =>
      obtain ⟨answer, ends, -⟩ := Frail.map_ends h
      obtain rfl := Frail.eq_of_read ends
      exact ⟨clean, fun _ => rfl⟩

/-- No operation brings a store out of readiness, whatever comes of it. -/
theorem ready_of_perform {op : Operation} (ready : s.Ready w) {result : Option Bool}
    (h : op.perform s w result w') : s.Ready w' := by
  cases op with
  | write written groups =>
      obtain ⟨answer, ends, -⟩ := Frail.map_ends h
      exact (edits_of_write ready ends).ready ready
  | remove removed =>
      obtain ⟨answer, ends, -⟩ := Frail.map_ends h
      obtain ⟨gone, -⟩ | ⟨rfl, -⟩ := remove_ends ends
      · obtain ⟨q, looks, edit, -⟩ := remove_edits (plain_fileName removed) gone
        exact ready.edited looks edit
      · exact ready
  | read looked =>
      obtain ⟨answer, ends, -⟩ := Frail.map_ends h
      exact eq_of_read ends ▸ ready
  | read? looked =>
      obtain ⟨answer, ends, -⟩ := Frail.map_ends h
      obtain ⟨answer, ends, -⟩ := Frail.map_ends ends
      exact eq_of_read ends ▸ ready
  | holds looked =>
      obtain ⟨answer, ends, -⟩ := Frail.map_ends h
      exact Frail.eq_of_read ends ▸ ready

end Operation

/-! ### Sequences of operations -/

/-- Operations one after another, each with whether it has succeeded. After one that stopped the
machine it goes on with the files as they are. -/
inductive Run (s : Store) (w₀ : Workspace) : List (Operation × Bool) → Workspace → Prop
  | start : Run s w₀ [] w₀
  | next {history : List (Operation × Bool)} {w w' : Workspace} {op : Operation}
    {result : Option Bool} (before : Run s w₀ history w) (fits : op.Fits)
    (h : op.perform s w result w') : Run s w₀ (history ++ [(op, result == some true)]) w'

theorem Run.effects {w₀ : Workspace} {history : List (Operation × Bool)} (run : s.Run w₀ history w)
    (clean : s.Clean w₀) : s.Clean w ∧
      ∀ stage, s.content w stage = history.foldl (Operation.effect stage) (s.content w₀ stage) := by
  induction run with
  | start => exact ⟨clean, fun _ => rfl⟩
  | next _ fits h ih =>
      obtain ⟨clean', effect⟩ := Operation.effect_of_perform ih.1 fits h
      refine ⟨clean', fun stage => ?_⟩
      rw [effect, ih.2, List.foldl_append]
      rfl

theorem Run.ready {w₀ : Workspace} {history : List (Operation × Bool)} (run : s.Run w₀ history w)
    (ready : s.Ready w₀) : s.Ready w := by
  induction run with
  | start => exact ready
  | next _ _ h ih => exact Operation.ready_of_perform ih h

theorem run_attempt {β γ : Type} {path : String} {action : StateM Workspace (Except IoFault β)}
    {rest : β → ExceptT Fault (StateM Workspace) γ} {x : β} {w₁ : Workspace}
    (h : action w = (.ok x, w₁)) :
    (attempt path action >>= rest).run.run w = (rest x).run.run w₁ := by
  change (ExceptT.bindCont rest ((action w).1.mapError (Fault.io path)) : StateM Workspace _)
    (action w).2 = _
  rw [h]
  rfl

/-- A store that is ready takes every write, and stays ready. -/
theorem Ready.write_succeeds (ready : s.Ready w) (stage : Stage) (groups : Snapshot) :
    ∃ w', (s.write stage groups : ExceptT Fault (StateM Workspace) String).run.run w =
        (.ok (s.path stage), w') ∧
      (Operation.write stage groups).perform s w (some true) w' := by
  obtain ⟨p, led⟩ := ready.led
  have made := Workspace.makeDirectories_of_leads led ready.shortDirectory
  obtain ⟨w₁, written, ready₁⟩ := ready.writeStaging stage (encode stage groups)
  obtain ⟨-, -, whole⟩ := staged ready.toClean written
  obtain ⟨w₂, moved, ready₂⟩ := ready₁.renameStaging whole
  refine ⟨w₂, ?_, .inl ⟨.ok (s.path stage), w₂, ?_, rfl, rfl⟩⟩
  · have hwrite : (Host.write (s.stagingPath stage) (encode stage groups) : StateM Workspace _) w =
        (.ok (), w₁) := Workspace.change_of_ok written
    have hrename : (Host.rename (s.stagingPath stage) (s.path stage) : StateM Workspace _) w₁ =
        (.ok (), w₂) := Workspace.change_of_ok moved
    exact (run_attempt made).trans ((run_attempt hwrite).trans (run_attempt hrename))
  · exact attempt_goesOn (.of_eq made) <|
      attempt_goesOn (.of_change written) <| attempt_goesOn (.of_change moved) ⟨rfl, rfl⟩

/-- A write may stop at any byte of the file that it stages. -/
theorem Ready.write_stops (ready : s.Ready w) (stage : Stage) (groups : Snapshot) (n : Nat) :
    ∃ w', w.write (s.stagingPath stage) ((encode stage groups).take n) = .ok w' ∧
      (Operation.write stage groups).perform s w none w' := by
  obtain ⟨p, led⟩ := ready.led
  have made := Workspace.makeDirectories_of_leads led ready.shortDirectory
  obtain ⟨w₁, written, ready₁⟩ := ready.writeStaging stage ((encode stage groups).take n)
  refine ⟨w₁, written, .inr ⟨?_, rfl⟩⟩
  exact attempt_goesOn (.of_eq made) <| attempt_stops (.stopped (.upTo n written))

/-- All that can be seen of a stage by reading. -/
structure Shows (s : Store) (w : Workspace) (stage : Stage)
    (held : Option (Except Flaw Snapshot)) : Prop where
  read : ∃ answer,
    (s.read stage : ExceptT Fault (StateM Workspace) Snapshot).run.run w = (answer, w) ∧
      held.elim (∃ cause, answer = .error (.io (s.path stage) cause)) fun decoded =>
        answer = decoded.mapError (.flawed (s.path stage))
  read? : (s.read? stage : StateM Workspace _).run w = (held.bind Except.toOption, w)
  holds : (s.holds stage : StateM Workspace _).run w = (held.isSome, w)

theorem run_read (s : Store) (w : Workspace) (stage : Stage) :
    (s.read stage : ExceptT Fault (StateM Workspace) Snapshot).run.run w =
      (((w.read (s.path stage)).mapError (Fault.io (s.path stage))).bind fun bytes =>
        (decode stage bytes).mapError (.flawed (s.path stage)), w) := by
  unfold read
  change (ExceptT.bindCont _ ((w.read (s.path stage)).mapError (Fault.io (s.path stage))) :
    StateM Workspace _) w = _
  cases w.read (s.path stage) <;> rfl

theorem shows_content (s : Store) (w : Workspace) (stage : Stage) :
    s.Shows w stage (s.content w stage) := by
  have answer := run_read s w stage
  have seen : (s.holds stage : StateM Workspace _).run w = ((w.read (s.path stage)).isOk, w) := rfl
  have optional : (s.read? stage : StateM Workspace _).run w =
      ((s.read stage : ExceptT Fault (StateM Workspace) Snapshot).run.run w).map
        Except.toOption id := rfl
  rw [answer] at optional
  unfold content
  cases h : w.read (s.path stage) with
  | error cause =>
      rw [h] at answer optional seen
      exact ⟨⟨_, answer, cause, rfl⟩, optional, seen⟩
  | ok bytes =>
      rw [h] at answer optional seen
      refine ⟨⟨_, answer, rfl⟩, optional.trans ?_, seen⟩
      cases hd : decode stage bytes <;> simp [Except.mapError, Except.bind, Except.toOption, hd]

/-- A store is a map from stages to groups: whatever comes of the operations on it, a stage shows
what it held at first with the effects of those that have succeeded; and a write can still
succeed. -/
theorem Run.shows_effects {w₀ : Workspace} {history : List (Operation × Bool)}
    (run : s.Run w₀ history w) (clean : s.Clean w₀) (stage : Stage) :
    s.Shows w₀ stage (s.content w₀ stage) ∧
      s.Shows w stage (history.foldl (Operation.effect stage) (s.content w₀ stage)) ∧
      (s.Ready w₀ → ∀ groups, ∃ w',
        (s.write stage groups : ExceptT Fault (StateM Workspace) String).run.run w =
            (.ok (s.path stage), w') ∧
          (Operation.write stage groups).perform s w (some true) w') := by
  refine ⟨shows_content s w₀ stage, ?_, fun ready => (run.ready ready).write_succeeds stage⟩
  rw [← (run.effects clean).2 stage]
  exact shows_content s w stage

/-- Groups with every kind of size. -/
def sampleGroups : Snapshot := .ofList
  [("alu", { name := "alu", sourcePath := some "top/alu", area := ⟨0x4079000000000000⟩
             dimension := .options [⟨⟨0⟩, ⟨1⟩⟩], children := ["mul"] }),
   ("mem", { name := "mem", area := ⟨0⟩, x := some ⟨2⟩, y := some ⟨3⟩, parent := some "alu"
             dimension := .fixed ⟨⟨4⟩, ⟨5⟩⟩, attributes := .ofList [("kind", "bram")] }),
   ("mul", { name := "mul", area := ⟨6⟩ })]

theorem leads_snaps (files : List (Place × Entry)) :
    Workspace.Leads { entries := (["snaps"], .directory) :: files }
      (.ofText "snaps") ["snaps"] := by
  rw [show Route.ofText "snaps" = ⟨false, ["snaps"], false⟩ by decide +kernel]
  exact ⟨rfl, rfl⟩

/-- The directory of a store beside files. -/
def snapsBeside (files : List (Place × Entry)) : Workspace :=
  { entries := (["snaps"], .directory) :: files }

theorem placeOf_snaps (files : List (Place × Entry)) (name : String) :
    placeOf ⟨"snaps"⟩ (snapsBeside files) name = ["snaps", name] := by
  rw [placeOf, snapsBeside, ← (leads_snaps files).eq_destination]
  rfl

theorem ready_snapsBeside {files : List (Place × Entry)}
    (solid : ∀ e ∈ files, ∃ bytes, e.2 = .file bytes) : Ready ⟨"snaps"⟩ (snapsBeside files) := by
  have led := leads_snaps files
  have entry (name : String) (e : Entry) (he : ∀ bytes, e ≠ .file bytes) :
      Workspace.entry? (snapsBeside files) (placeOf ⟨"snaps"⟩ (snapsBeside files) name) ≠
        some e := by
    rw [placeOf_snaps]
    intro found
    change files.lookup ["snaps", name] = some e at found
    obtain ⟨before, after, rfl, -⟩ := List.lookup_eq_some_iff.mp found
    obtain ⟨bytes, hbytes⟩ := solid (["snaps", name], e) (by simp)
    exact he bytes hbytes
  have short (stage : Stage) :
      (stagingPath ⟨"snaps"⟩ stage).utf8ByteSize ≤ Workspace.pathLimit := by
    cases stage <;> decide +kernel
  exact
    { file := fun _ => entry _ _ nofun
      staging := fun _ => entry _ _ nofun
      reached := .inl ⟨_, led⟩
      led := ⟨_, led⟩
      short
      freeFile := fun _ => entry _ _ nofun
      freeStaging := fun _ => entry _ _ nofun }

theorem content_snapsBeside {files : List (Place × Entry)} {groups : Snapshot}
    (found : files.lookup ["snaps", fileName stage] = some (.file (encode stage groups)))
    (fits : (groupsCodec.write groups).length < Codec.byteLimit) :
    content ⟨"snaps"⟩ (snapsBeside files) stage = some (.ok groups) := by
  have short : (joinPath "snaps" (fileName stage)).utf8ByteSize ≤ Workspace.pathLimit := by
    cases stage <;> decide +kernel
  have looks : (snapsBeside files).Looks "snaps" (fileName stage) ["snaps", fileName stage] :=
    ⟨short, _, leads_snaps _, rfl⟩
  rw [content_of_file looks found, decode_encode _ _ fits]

theorem content_snapsBeside_none {files : List (Place × Entry)}
    (solid : ∀ e ∈ files, ∃ bytes, e.2 = .file bytes)
    (missing : files.lookup ["snaps", fileName stage] = none) :
    content ⟨"snaps"⟩ (snapsBeside files) stage = none := by
  refine content_of_nothing (ready_snapsBeside solid).toClean ?_
  have entry : Workspace.entry? (snapsBeside files) ["snaps", fileName stage] = none := missing
  rw [placeOf_snaps, Workspace.fileAt, entry]

theorem ready_snaps : Ready ⟨"snaps"⟩ { entries := [(["snaps"], .directory)] } :=
  have ready : Ready ⟨"snaps"⟩ (snapsBeside []) := ready_snapsBeside nofun
  ready

/-- A write that is cut off after five bytes leaves what was stored before. -/
theorem Run.shows_effects_cut : ∃ w, Run ⟨"snaps"⟩ { entries := [(["snaps"], .directory)] }
      [(.write .placed sampleGroups, true), (.write .placed .empty, false)] w ∧
    Clean ⟨"snaps"⟩ { entries := [(["snaps"], .directory)] } ∧
    Shows ⟨"snaps"⟩ w .placed (some (.ok sampleGroups)) := by
  have fits : (Operation.write .placed sampleGroups).Fits :=
    show (groupsCodec.write sampleGroups).length < Codec.byteLimit by decide +kernel
  have fits' : (Operation.write .placed .empty).Fits :=
    show (groupsCodec.write .empty).length < Codec.byteLimit by decide +kernel
  obtain ⟨w₁, -, first⟩ := ready_snaps.write_succeeds .placed sampleGroups
  have ready₁ := Operation.ready_of_perform ready_snaps first
  obtain ⟨w₂, -, second⟩ := ready₁.write_stops .placed .empty 5
  have run := (Run.start.next fits first).next fits' second
  have clean := ready_snaps.toClean
  exact ⟨w₂, run, clean, (run.shows_effects clean .placed).2.1⟩

end HardwareLinker.Snapshot.Store
