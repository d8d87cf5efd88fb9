import HardwareLinker.Command.Place
import HardwareLinker.Command.Treecut
import HardwareLinker.Proofs.Command.LoadOrder
import HardwareLinker.Proofs.Snapshot.Runs

/-!
What a run of `place` leaves of earlier plans. A run that has read everything and then finds no
placement deletes what earlier runs placed, so that nothing is cut along a plan that is out of date.
A run that is turned away before, by what it was to read, leaves the earlier plan where it is.
-/

namespace HardwareLinker.Command

open Snapshot (Store decode encode)

variable {s : Surroundings} {globals : Globals} {a : PlaceArguments} {store : Store}
variable {w w' : Workspace}

/-! ### Programs that only read -/

theorem reads_read (path : String) : Reads (Host.read path) := fun _ => rfl

theorem reads_readText (path : String) : Reads (readText path).run := fun _ => rfl

theorem reads_settings (globals : Globals) : Reads (settings globals).run := by
  have reads_settingsAt (path : String) : Reads (settingsAt path) := by
    refine (reads_read path).bind fun answer => ?_
    cases answer <;> exact .pure _
  have reads_isThere (path : String) : Reads (Host.isThere path) := by
    refine (reads_read path).bind fun answer => ?_
    rcases answer with cause | bytes
    · cases cause <;> exact .pure _
    · exact .pure _
  have looks : Reads (lookUpSettings globals) := by
    unfold lookUpSettings
    cases globals.configuration with
    | some path => exact reads_settingsAt path
    | none =>
        refine (reads_isThere Settings.fileName).bind fun there => ?_
        cases there with
        | true => exact reads_settingsAt _
        | false => exact .pure _
  exact looks.bind fun _ => .pure _

theorem reads_readAreas (path : Option String) : Reads (readAreas path).run := by
  cases path with
  | none => exact .pure _
  | some path =>
      refine (reads_readText path).bindExcept fun text => ?_
      cases Floorplan.areasOfText? text <;> exact .pure _

theorem reads_loadGraph (g : Graph Binary64) (paths : List String) :
    Reads (loadGraph g paths).run := by
  induction paths generalizing g with
  | nil => exact .pure _
  | cons path rest ih =>
      refine (reads_readText path).bindExcept fun text => ?_
      cases extend g text with
      | ok g => exact ih g
      | error f => exact .pure _

theorem reads_loadTraffic (logs : List String) : Reads (loadTraffic logs).run := by
  cases logs with
  | nil => exact .pure _
  | cons path rest => exact (reads_loadGraph _ _).bindExcept fun _ => .pure _

/-! ### The parts of a run -/

/-- What a run reads before it plans anything. -/
structure Inputs where
  settings : PlacementSettings Binary64
  source : String
  areas : NameMap Binary64

section

variable {m : Type → Type} [Monad m] [Host m]

def readInputs (globals : Globals) (a : PlaceArguments) : Action m Inputs := do
  let configured := (← settings globals).placement
  let source ← readText a.constraints
  let areas ← readAreas a.resources
  return ⟨{ configured with backend := a.backend.getD configured.backend }, source, areas⟩

/-- The rest of a run, once there is a plan. -/
def placeElaborated (s : Surroundings) (globals : Globals) (a : PlaceArguments)
    (settings : PlacementSettings Binary64) (plan : Floorplan Binary64) : Action m Nat := do
  let _ ← stored (Store.write ⟨a.snapshots⟩ .elaborated plan.groups)
  match ← loadTraffic a.logs with
  | .error d => finish s globals [d]
  | .ok traffic => placePlan s globals a settings traffic plan

/-- The rest of a run, once everything is read. -/
def placeInputs (s : Surroundings) (globals : Globals) (a : PlaceArguments) (i : Inputs) :
    Action m Nat :=
  match planOf a.constraints i.source i.areas i.settings with
  | .error d => giveUp s globals ⟨a.snapshots⟩ d
  | .ok plan => placeElaborated s globals a i.settings plan

theorem place_eq [LawfulMonad m] (s : Surroundings) (globals : Globals) (a : PlaceArguments) :
    (place s globals a : Action m Nat) = readInputs globals a >>= placeInputs s globals a := by
  simp only [place, readInputs, bind_assoc, pure_bind]
  rfl

/-- The end of a run, by what came of the placement. -/
def concludePlacement (s : Surroundings) (globals : Globals) (store : Store) :
    Except (Floorplan.Fault Binary64) (Floorplan Binary64) → Action m Nat
  | .error f => giveUp s globals store (floorplanReport f)
  | .ok placed => do
    let path ← stored (store.write .placed placed.groups)
    showPlan globals placed path
    finish s globals []

theorem placePlan_eq [LawfulMonad m] (s : Surroundings) (globals : Globals) (a : PlaceArguments)
    (settings : PlacementSettings Binary64) (traffic : TrafficTable Binary64)
    (plan : Floorplan Binary64) :
    (placePlan s globals a settings traffic plan : Action m Nat) =
      (if a.reuse then earlier ⟨a.snapshots⟩ .placed else pure none) >>= fun prior =>
        concludePlacement s globals ⟨a.snapshots⟩ (Floorplan.Run.solve
          { traffic, solver := Milp.solverOf settings s.launch, settings } plan prior) := by
  unfold placePlan
  cases a.reuse <;> rfl

theorem discardPlacement_eq [LawfulMonad m] (store : Store) :
    (discardPlacement store : Action m Unit) =
      stored (store.remove .placed) >>= fun _ =>
        stored (store.remove .final) >>= fun _ => pure () := by
  simp [discardPlacement]

end

theorem reads_readInputs (globals : Globals) (a : PlaceArguments) :
    Reads (readInputs globals a).run :=
  (reads_settings globals).bindExcept fun _ => (reads_readText _).bindExcept fun _ =>
    (reads_readAreas _).bindExcept fun _ => .pure _

/-! ### What is left of earlier plans -/

/-- No plan is left, neither as it was placed nor with the paths of a tree. -/
structure NoPlan (store : Store) (w : Workspace) : Prop where
  placed : store.content w .placed = none
  final : store.content w .final = none

/-- The plans are left as they were. -/
def SamePlan (store : Store) (w w' : Workspace) : Prop :=
  ∀ stage, stage ≠ .elaborated → store.content w' stage = store.content w stage

/-- Plans are gone or left as they were; there is no new one. -/
def NoNewPlan (store : Store) (w w' : Workspace) : Prop :=
  ∀ stage, stage ≠ .elaborated →
    store.content w' stage = none ∨ store.content w' stage = store.content w stage

/-- Only one stage is touched, and it is emptied or left as it was as well. -/
theorem NoNewPlan.of_stage {stage : Stage}
    (others : ∀ other, other ≠ stage → store.content w' other = store.content w other)
    (own : store.content w' stage = none ∨ store.content w' stage = store.content w stage) :
    NoNewPlan store w w' := by
  intro other _
  by_cases same : other = stage
  · exact same ▸ own
  · exact .inr (others other same)

theorem NoNewPlan.trans {w'' : Workspace} (h : NoNewPlan store w w') (h' : NoNewPlan store w' w'') :
    NoNewPlan store w w'' := by
  intro stage plan
  obtain gone | same := h' stage plan
  · exact .inl gone
  · rw [same]
    exact h stage plan

/-- An operation on a store that is not ready for it fails, and the run with it. -/
structure Refused (store : Store) (w : Workspace) (line : String) (w' : Workspace) : Prop where
  unready : ¬ store.Ready w
  fault : ∃ fault : Snapshot.Fault, line = fault.message
  left : NoNewPlan store w w'

theorem Refused.after {line : String} {w₁ : Workspace} (h : Refused store w₁ line w')
    (ready : store.Ready w → store.Ready w₁) (left : NoNewPlan store w w₁) :
    Refused store w line w' :=
  ⟨fun there => h.unready (ready there), h.fault, left.trans h.left⟩

theorem NoPlan.sameFiles (h : NoPlan store w) (same : SameFiles w w') : NoPlan store w' :=
  ⟨(Store.content_sameFiles same _).trans h.placed, (Store.content_sameFiles same _).trans h.final⟩

theorem ends_earlier (store : Store) (w : Workspace) (stage : Stage) :
    Ends (earlier store stage) w (.ok ((store.content w stage).bind Except.toOption)) w := by
  have shown := (Store.shows_content store w stage).read?
  refine ends_lift.mpr ⟨?_, ?_⟩ <;> rw [shown]

/-- The plan that a cut follows. -/
theorem ends_storedPlan (store : Store) (w : Workspace) :
    Ends (storedPlan store true) w
      (.ok (((store.content w .placed).bind Except.toOption).map Floorplan.ofGroups)) w :=
  (ends_earlier store w .placed).bind rfl

/-- Where there is no plan, nothing is cut along one. -/
theorem NoPlan.storedPlan (h : NoPlan store w) (usePlacement : Bool) :
    Ends (storedPlan store usePlacement) w (.ok none) w := by
  cases usePlacement with
  | false => rfl
  | true =>
      have followed := ends_storedPlan store w
      rwa [h.placed] at followed

/-! ### Endings -/

theorem ends_finish {reports : List Diagnostic} {result : Except String Nat}
    (h : Ends (finish s globals reports) w result w') :
    result = .ok (exitCode reports) ∧ SameFiles w w' := by
  obtain ⟨rfl, rfl⟩ := Prod.mk.inj h
  exact ⟨rfl, _, _, rfl⟩

theorem ends_showPlan {p : Floorplan Binary64} {path : String} {result : Except String Unit}
    (h : Ends (showPlan globals p path) w result w') : result = .ok () ∧ SameFiles w w' := by
  unfold showPlan progress at h
  cases hq : globals.quiet <;> rw [hq] at h <;> obtain ⟨rfl, rfl⟩ := Prod.mk.inj h <;>
    exact ⟨rfl, _, _, rfl⟩

/-- An operation that a store takes if it is ready. -/
theorem ends_stored {β : Type} {operation : ExceptT Snapshot.Fault (StateM Workspace) β}
    {result : Except String β} (ran : Ends (stored operation) w result w')
    (succeeds : ∀ {answer}, Ends operation w answer w' → store.Ready w → ∃ x, answer = .ok x)
    (fails : ∀ {fault}, Ends operation w (.error fault) w' → NoNewPlan store w w') :
    (∃ x, result = .ok x ∧ Ends operation w (.ok x) w') ∨
      ∃ line, result = .error line ∧ Refused store w line w' := by
  obtain ⟨answer, h, rfl⟩ := ends_adapt.mp ran
  cases answer with
  | ok x => exact .inl ⟨x, rfl, h⟩
  | error fault =>
      refine .inr ⟨fault.message, rfl, fun ready => ?_, ⟨fault, rfl⟩, fails h⟩
      obtain ⟨x, hx⟩ := succeeds h ready
      cases hx

theorem ends_stored_write {stage : Stage} {groups : Snapshot} {result : Except String String}
    (clean : store.Clean w) (ran : Ends (stored (store.write stage groups)) w result w') :
    (∃ path, result = .ok path ∧ Ends (store.write stage groups) w (.ok path) w') ∨
      ∃ line, result = .error line ∧ Refused store w line w' := by
  refine ends_stored ran (fun h ready => ⟨_, ((Store.written_of_ends clean h).ready ready).2⟩) ?_
  intro fault h
  have written := Store.written_of_ends clean h
  exact .of_stage written.others (.inr (written.failed fault rfl))

theorem ends_stored_remove {stage : Stage} {result : Except String Bool} (clean : store.Clean w)
    (ran : Ends (stored (store.remove stage)) w result w') :
    (∃ found, result = .ok found ∧ store.Removed w stage (.ok found) w') ∨
      ∃ line, result = .error line ∧ Refused store w line w' := by
  refine (ends_stored ran
    (fun h ready => ((Store.removed_of_ends clean h).ready ready).2) ?_).imp_left
    fun ⟨found, same, h⟩ => ⟨found, same, Store.removed_of_ends clean h⟩
  intro fault h
  have removed := Store.removed_of_ends clean h
  exact .of_stage removed.others (.inr (removed.failed fault rfl))

theorem ends_discardPlacement (clean : store.Clean w) {result : Except String Unit}
    (ran : Ends (discardPlacement store) w result w') :
    result = .ok () ∧ NoPlan store w' ∨ ∃ line, result = .error line ∧ Refused store w line w' := by
  rw [discardPlacement_eq] at ran
  obtain ⟨_, w₁, first, later⟩ | ⟨line, first, rfl⟩ := ends_bind.mp ran
  · obtain ⟨_, -, removed⟩ | ⟨_, failed, -⟩ := ends_stored_remove clean first
    · obtain ⟨_, w₂, second, later⟩ | ⟨line, second, rfl⟩ := ends_bind.mp later
      · obtain ⟨_, -, removed'⟩ | ⟨_, failed, -⟩ := ends_stored_remove removed.clean second
        · obtain ⟨rfl, rfl⟩ := ends_pure.mp later
          refine .inl ⟨rfl, ?_, removed'.gone _ rfl⟩
          rw [removed'.others .placed (by decide), removed.gone _ rfl]
        · cases failed
      · obtain ⟨_, succeeded, -⟩ | ⟨_, ⟨⟩, refused⟩ := ends_stored_remove removed.clean second
        · cases succeeded
        · exact .inr ⟨line, rfl, refused.after (fun ready => (removed.ready ready).1)
            (.of_stage removed.others (.inl (removed.gone _ rfl)))⟩
    · cases failed
  · obtain ⟨_, succeeded, -⟩ | ⟨_, ⟨⟩, refused⟩ := ends_stored_remove clean first
    · cases succeeded
    · exact .inr ⟨line, rfl, refused⟩

theorem ends_giveUp {d : Diagnostic} (clean : store.Clean w) {result : Except String Nat}
    (ran : Ends (giveUp s globals store d) w result w') :
    NoPlan store w' ∨ ∃ line, result = .error line ∧ Refused store w line w' := by
  obtain ⟨⟨⟩, w₁, discarded, later⟩ | ⟨line, discarded, rfl⟩ := ends_bind.mp ran
  · obtain ⟨-, gone⟩ | ⟨_, failed, -⟩ := ends_discardPlacement clean discarded
    · exact .inl (gone.sameFiles (ends_finish later).2)
    · cases failed
  · obtain ⟨succeeded, -⟩ | ⟨_, ⟨⟩, refused⟩ := ends_discardPlacement clean discarded
    · cases succeeded
    · exact .inr ⟨line, rfl, refused⟩

/-! ### Runs -/

/-- A run has read this, made that plan of it, and stored the plan. -/
structure Elaborates (globals : Globals) (a : PlaceArguments) (w : Workspace) (i : Inputs)
    (plan : Floorplan Binary64) (w' : Workspace) : Prop where
  read : Ends (readInputs globals a) w (.ok i) w
  planned : planOf a.constraints i.source i.areas i.settings = .ok plan
  stored : ∃ path, Ends (Store.write ⟨a.snapshots⟩ .elaborated plan.groups) w (.ok path) w'

/-- The earlier plan that a run takes sizes from. -/
def priorOf (a : PlaceArguments) (w : Workspace) : Option Snapshot :=
  if a.reuse then (Store.content ⟨a.snapshots⟩ w .placed).bind Except.toOption else none

theorem ends_prior (a : PlaceArguments) (w : Workspace) :
    Ends (if a.reuse then earlier ⟨a.snapshots⟩ .placed else pure none) w
      (.ok (priorOf a w)) w := by
  unfold priorOf
  cases a.reuse with
  | true => exact ends_earlier _ _ _
  | false => rfl

/-- A run comes to a placement of its plan. -/
inductive Places (s : Surroundings) (globals : Globals) (a : PlaceArguments) (w : Workspace)
    (placed : Floorplan Binary64) : Prop
  | solved {i : Inputs} {plan : Floorplan Binary64} {w₁ : Workspace}
    {traffic : TrafficTable Binary64} (elaborated : Elaborates globals a w i plan w₁)
    (loaded : Ends (loadTraffic a.logs) w₁ (.ok (.ok traffic)) w₁)
    (solved : Floorplan.Run.solve
      { traffic, solver := Milp.solverOf i.settings s.launch, settings := i.settings } plan
      (priorOf a w₁) = .ok placed)

/-- A run has stored a new placement. -/
def Wrote (s : Surroundings) (globals : Globals) (a : PlaceArguments) (w w' : Workspace) : Prop :=
  ∃ placed, Places s globals a w placed ∧
    Store.content ⟨a.snapshots⟩ w' .placed = some (decode .placed (encode .placed placed.groups))

/-- A run ends by something that it was to read: its settings, the constraint file or the table of
areas, or, when it has elaborated its plan already, a log. -/
inductive TurnedAway (globals : Globals) (a : PlaceArguments) (w : Workspace) :
    Except String Nat → Prop
  | input {line : String} (h : Ends (readInputs globals a) w (.error line) w) :
    TurnedAway globals a w (.error line)
  | unreadable {i : Inputs} {plan : Floorplan Binary64} {w₁ : Workspace} {line : String}
    (elaborated : Elaborates globals a w i plan w₁)
    (h : Ends (loadTraffic a.logs) w₁ (.error line) w₁) : TurnedAway globals a w (.error line)
  | faulty {i : Inputs} {plan : Floorplan Binary64} {w₁ : Workspace} {d : Diagnostic}
    (elaborated : Elaborates globals a w i plan w₁)
    (h : Ends (loadTraffic a.logs) w₁ (.ok (.error d)) w₁) :
    TurnedAway globals a w (.ok (exitCode [d]))

theorem ends_concludePlacement {answer : Except (Floorplan.Fault Binary64) (Floorplan Binary64)}
    {result : Except String Nat} (clean : store.Clean w)
    (ran : Ends (concludePlacement s globals store answer) w result w') :
    (∃ placed, answer = .ok placed ∧
        store.content w' .placed = some (decode .placed (encode .placed placed.groups))) ∨
      NoPlan store w' ∨ ∃ line, result = .error line ∧ Refused store w line w' := by
  cases answer with
  | error f => exact .inr (ends_giveUp clean ran)
  | ok placed =>
      obtain ⟨path, w₁, put, later⟩ | ⟨line, put, rfl⟩ := ends_bind.mp ran
      · obtain ⟨_, -, put⟩ | ⟨_, failed, -⟩ := ends_stored_write clean put
        · have written := Store.written_of_ends clean put
          obtain ⟨⟨⟩, w₂, shown, later⟩ | ⟨line, shown, -⟩ := ends_bind.mp later
          · have same := (ends_showPlan shown).2.trans (ends_finish later).2
            refine .inl ⟨placed, rfl, ?_⟩
            rw [Store.content_sameFiles same, written.stored _ rfl]
          · cases (ends_showPlan shown).1
        · cases failed
      · obtain ⟨_, succeeded, -⟩ | ⟨_, ⟨⟩, refused⟩ := ends_stored_write clean put
        · cases succeeded
        · exact .inr (.inr ⟨line, rfl, refused⟩)

theorem ends_placePlan {settings : PlacementSettings Binary64} {traffic : TrafficTable Binary64}
    {plan : Floorplan Binary64} {result : Except String Nat} (clean : Store.Clean ⟨a.snapshots⟩ w)
    (ran : Ends (placePlan s globals a settings traffic plan) w result w') :
    (∃ placed, Floorplan.Run.solve
          { traffic, solver := Milp.solverOf settings s.launch, settings } plan (priorOf a w) =
        .ok placed ∧ Store.content ⟨a.snapshots⟩ w' .placed =
          some (decode .placed (encode .placed placed.groups))) ∨
      NoPlan ⟨a.snapshots⟩ w' ∨ ∃ line, result = .error line ∧ Refused ⟨a.snapshots⟩ w line w' := by
  have before := ends_prior a w
  rw [placePlan_eq] at ran
  obtain ⟨prior, w₁, looked, later⟩ | ⟨line, looked, -⟩ := ends_bind.mp ran
  · obtain ⟨same, rfl⟩ := before.unique looked
    cases same
    exact ends_concludePlacement clean later
  · cases (before.unique looked).1

/-- How a run ends: it has stored a placement, or has deleted what there was, or has been turned
away and kept it, or the machine has refused an operation on the store. -/
def Ended (s : Surroundings) (globals : Globals) (a : PlaceArguments) (w : Workspace)
    (result : Except String Nat) (w' : Workspace) : Prop :=
  Wrote s globals a w w' ∨ NoPlan ⟨a.snapshots⟩ w' ∨
    (TurnedAway globals a w result ∧ SamePlan ⟨a.snapshots⟩ w w') ∨
    ∃ line, result = .error line ∧ Refused ⟨a.snapshots⟩ w line w'

theorem ended_placeElaborated {i : Inputs} {plan : Floorplan Binary64} {result : Except String Nat}
    (clean : Store.Clean ⟨a.snapshots⟩ w) (read : Ends (readInputs globals a) w (.ok i) w)
    (planned : planOf a.constraints i.source i.areas i.settings = .ok plan)
    (ran : Ends (placeElaborated s globals a i.settings plan) w result w') :
    Ended s globals a w result w' := by
  obtain ⟨path, w₁, put, later⟩ | ⟨line, put, rfl⟩ := ends_bind.mp ran
  · obtain ⟨_, -, put⟩ | ⟨_, failed, -⟩ := ends_stored_write clean put
    · have written := Store.written_of_ends clean put
      have elaborated : Elaborates globals a w i plan w₁ := ⟨read, planned, _, put⟩
      obtain ⟨answer, w₂, loaded, later⟩ | ⟨line, unread, rfl⟩ := ends_bind.mp later
      · obtain rfl := (reads_loadTraffic a.logs).eq loaded
        cases answer with
        | error d =>
            obtain ⟨rfl, streams⟩ := ends_finish later
            refine .inr (.inr (.inl ⟨.faulty elaborated loaded, fun stage plan => ?_⟩))
            rw [Store.content_sameFiles streams, written.others stage plan]
        | ok traffic =>
            obtain ⟨placed, solved, stored⟩ | gone | ⟨line, rfl, refused⟩ :=
              ends_placePlan written.clean later
            · exact .inl ⟨placed, .solved elaborated loaded solved, stored⟩
            · exact .inr (.inl gone)
            · exact .inr (.inr (.inr ⟨line, rfl, refused.after
                (fun ready => (written.ready ready).1) fun stage plan =>
                  .inr (written.others stage plan)⟩))
      · obtain rfl := (reads_loadTraffic a.logs).eq unread
        exact .inr (.inr (.inl ⟨.unreadable elaborated unread, written.others⟩))
    · cases failed
  · obtain ⟨_, succeeded, -⟩ | ⟨_, ⟨⟩, refused⟩ := ends_stored_write clean put
    · cases succeeded
    · exact .inr (.inr (.inr ⟨line, rfl, refused⟩))

theorem ended_place {result : Except String Nat} (clean : Store.Clean ⟨a.snapshots⟩ w)
    (ran : Ends (place s globals a) w result w') : Ended s globals a w result w' := by
  rw [place_eq] at ran
  obtain ⟨i, w₁, read, later⟩ | ⟨line, unread, rfl⟩ := ends_bind.mp ran
  · obtain rfl := (reads_readInputs globals a).eq read
    unfold placeInputs at later
    split at later
    · exact .inr ((ends_giveUp clean later).imp_right .inr)
    · next plan planned => exact ended_placeElaborated clean read planned later
  · obtain rfl := (reads_readInputs globals a).eq unread
    exact .inr (.inr (.inl ⟨.input unread, fun _ _ => rfl⟩))

/-- A run that stores no new placement leaves none: it deletes what earlier runs placed, so that
nothing is cut along an earlier plan. Only where it is turned away by what it was to read does the
earlier plan stay, and only where the store is not ready may the machine refuse to delete it. -/
theorem place_leaves_no_stale_plan {result : Except String Nat}
    (clean : Store.Clean ⟨a.snapshots⟩ w) (ran : Ends (place s globals a) w result w')
    (unplaced : ¬ Wrote s globals a w w') :
    (NoPlan ⟨a.snapshots⟩ w' ∧
        ∀ usePlacement, Ends (storedPlan ⟨a.snapshots⟩ usePlacement) w' (.ok none) w') ∨
      (TurnedAway globals a w result ∧ SamePlan ⟨a.snapshots⟩ w w') ∨
      ∃ line, result = .error line ∧ Refused ⟨a.snapshots⟩ w line w' := by
  obtain gone | kept := (ended_place clean ran).resolve_left unplaced
  · exact .inl ⟨gone, gone.storedPlan⟩
  · exact .inr kept

/-- Where a log turns out to be at fault, the run ends without a placement and keeps the earlier
plan. -/
theorem Elaborates.keeps_plan {i : Inputs} {plan : Floorplan Binary64} {w₁ : Workspace}
    {d : Diagnostic} (elaborated : Elaborates globals a w i plan w₁)
    (clean : Store.Clean ⟨a.snapshots⟩ w)
    (loaded : Ends (loadTraffic a.logs) w₁ (.ok (.error d)) w₁) :
    ∃ w', Ends (place s globals a) w (.ok (exitCode [d])) w' ∧ ¬ Wrote s globals a w w' ∧
      SamePlan ⟨a.snapshots⟩ w w' := by
  obtain ⟨path, put⟩ := elaborated.stored
  obtain ⟨result, w', finished⟩ : ∃ result w',
    Ends (finish s globals [d]) w₁ result w' := ⟨_, _, rfl⟩
  obtain ⟨rfl, streams⟩ := ends_finish finished
  refine ⟨w', ?_, ?_, fun stage plan => ?_⟩
  · rw [place_eq]
    refine elaborated.read.bind ?_
    rw [placeInputs, elaborated.planned]
    exact (ends_adapt.mpr ⟨_, put, rfl⟩).bind (loaded.bind finished)
  · rintro ⟨placed, ⟨elaborated', loaded', -⟩, -⟩
    cases (elaborated'.read.unique elaborated.read).1
    cases elaborated.planned.symm.trans elaborated'.planned
    obtain ⟨path', put'⟩ := elaborated'.stored
    obtain ⟨-, rfl⟩ := put'.unique put
    cases (loaded'.unique loaded).1
  · rw [Store.content_sameFiles streams, (Store.written_of_ends clean put).others stage plan]

/-- Where the store is ready and the solver finds a placement, the run stores it. -/
theorem Elaborates.stores_placement {i : Inputs} {plan placed : Floorplan Binary64} {w₁ : Workspace}
    {traffic : TrafficTable Binary64} (elaborated : Elaborates globals a w i plan w₁)
    (ready : Store.Ready ⟨a.snapshots⟩ w)
    (loaded : Ends (loadTraffic a.logs) w₁ (.ok (.ok traffic)) w₁)
    (solved : Floorplan.Run.solve
      { traffic, solver := Milp.solverOf i.settings s.launch, settings := i.settings } plan
      (priorOf a w₁) = .ok placed) :
    ∃ w', Ends (place s globals a) w (.ok 0) w' ∧
      Store.content ⟨a.snapshots⟩ w' .placed =
        some (decode .placed (encode .placed placed.groups)) ∧
      Store.content ⟨a.snapshots⟩ w' .final = Store.content ⟨a.snapshots⟩ w .final := by
  obtain ⟨path, put⟩ := elaborated.stored
  have written := Store.written_of_ends ready.toClean put
  obtain ⟨ready₁, -⟩ := written.ready ready
  obtain ⟨w₂, put', -⟩ := ready₁.write_succeeds .placed placed.groups
  have written' := Store.written_of_ends ready₁.toClean put'
  obtain ⟨result, w₃, showed⟩ : ∃ result w₃, Ends (showPlan globals placed
    (Store.path ⟨a.snapshots⟩ .placed)) w₂ result w₃ := ⟨_, _, rfl⟩
  obtain ⟨rfl, streams⟩ := ends_showPlan showed
  obtain ⟨result, w', finished⟩ : ∃ result w', Ends (finish s globals []) w₃ result w' :=
    ⟨_, _, rfl⟩
  obtain ⟨rfl, streams'⟩ := ends_finish finished
  have same := streams.trans streams'
  refine ⟨w', ?_, ?_, ?_⟩
  · rw [place_eq]
    refine elaborated.read.bind ?_
    rw [placeInputs, elaborated.planned]
    refine Ends.bind (ends_adapt.mpr ⟨_, put, rfl⟩) (loaded.bind ?_)
    dsimp only
    rw [placePlan_eq]
    refine (ends_prior a w₁).bind ?_
    rw [solved]
    exact Ends.bind (ends_adapt.mpr ⟨_, put', rfl⟩) (showed.bind finished)
  · rw [Store.content_sameFiles same, written'.stored _ rfl]
  · rw [Store.content_sameFiles same, written'.others _ (by decide), written.others _ (by decide)]

/-! ### A store with an earlier plan -/

def textFile (name text : String) : Place × Entry := ([name], .file text.toUTF8.toList)

/-- An earlier run has placed the sample groups. -/
def placedBefore (files : List (Place × Entry)) : Workspace :=
  Store.snapsBeside
    ((["snaps", "placed.snap"], .file (encode .placed Store.sampleGroups)) :: files)

/-- Places by a constraint file, with logs. -/
def placing (logs : List String) : PlaceArguments :=
  { constraints := "top.cons", logs, snapshots := "snaps" }

section

variable {files : List (Place × Entry)} {source : String}

theorem ready_placedBefore (solid : ∀ e ∈ files, ∃ bytes, e.2 = .file bytes) :
    Store.Ready ⟨"snaps"⟩ (placedBefore files) := by
  refine Store.ready_snapsBeside ?_
  rw [List.forall_mem_cons]
  exact ⟨⟨_, rfl⟩, solid⟩

theorem content_placedBefore (files : List (Place × Entry)) :
    Store.content ⟨"snaps"⟩ (placedBefore files) .placed = some (.ok Store.sampleGroups) :=
  Store.content_snapsBeside rfl (by decide +kernel)

/-- What is read with the settings of a directory that has none. -/
def lone (source : String) : Inputs := ⟨{}, source, .empty⟩

theorem ends_settings (unset : w.read Settings.fileName = .error .notFound) :
    Ends (settings {}) w (.ok {}) w := by
  have looked : (Host.read Settings.fileName : StateM Workspace _).run w = (.error .notFound, w) :=
    congrArg (·, w) unset
  have missing : (Host.isThere Settings.fileName : StateM Workspace _).run w = (false, w) :=
    run_bind looked
  have defaults : (lookUpSettings {} : StateM Workspace _).run w = (.ok {}, w) := run_bind missing
  exact run_bind defaults

theorem ends_readText {path : String} (file : textAt w path = .ok source) :
    Ends (readText path) w (.ok source) w := by
  change ((textAt w path).mapError _, w) = _
  rw [file]
  rfl

theorem ends_readInputs (unset : w.read Settings.fileName = .error .notFound)
    (file : textAt w "top.cons" = .ok source) (logs : List String) :
    Ends (readInputs {} (placing logs)) w (.ok (lone source)) w :=
  (ends_settings unset).bind <| (ends_readText file).bind rfl

end

/-- What is no constraint, beside an earlier plan. -/
def nonsense : Workspace := placedBefore [textFile "top.cons" "nonsense"]

/-- A run that finds its constraint file to be nonsense deletes what was placed before. -/
theorem place_leaves_no_stale_plan_nonsense :
    Store.content ⟨"snaps"⟩ nonsense .placed = some (.ok Store.sampleGroups) ∧
    ∃ result w', Store.Clean ⟨"snaps"⟩ nonsense ∧
      Ends (place {} {} (placing [])) nonsense result w' ∧
      ¬ Wrote {} {} (placing []) nonsense w' ∧ NoPlan ⟨"snaps"⟩ w' := by
  have ready : Store.Ready ⟨"snaps"⟩ nonsense := ready_placedBefore (by simp [textFile])
  have read : Ends (readInputs {} (placing [])) nonsense (.ok (lone "nonsense")) nonsense :=
    ends_readInputs (by decide +kernel) (by decide +kernel) []
  have meaningless : (planOf "top.cons" "nonsense" .empty {}).isOk = false := by decide +kernel
  have unplanned {i : Inputs} {plan : Floorplan Binary64} {w₁ : Workspace} :
      ¬ Elaborates {} (placing []) nonsense i plan w₁ := by
    intro h
    cases (h.read.unique read).1
    have planned : planOf "top.cons" "nonsense" .empty {} = .ok plan := h.planned
    rw [planned] at meaningless
    cases meaningless
  obtain ⟨result, w', ran⟩ :
    ∃ result w', Ends (place {} {} (placing [])) nonsense result w' := ⟨_, _, rfl⟩
  have unplaced : ¬ Wrote {} {} (placing []) nonsense w' := by
    rintro ⟨placed, ⟨elaborated, -, -⟩, -⟩
    exact unplanned elaborated
  refine ⟨content_placedBefore _, result, w', ready.toClean, ran, unplaced, ?_⟩
  obtain ⟨gone, -⟩ | ⟨away, -⟩ | ⟨line, -, refused⟩ :=
    place_leaves_no_stale_plan ready.toClean ran unplaced
  · exact gone
  · cases away with
    | input h => cases (h.unique read).1
    | unreadable elaborated => exact absurd elaborated unplanned
    | faulty elaborated => exact absurd elaborated unplanned
  · exact absurd ready refused.unready

/-! ### A log that does not load -/

theorem exitCode_graphReport (log : String) (f : Graph.Fault) :
    exitCode [graphReport log f] = 1 := by
  cases f <;> rfl

theorem textOfBytes_toUTF8 (text : String) : Host.textOfBytes text.toUTF8.toList = .ok text := by
  rw [Host.textOfBytes, Codec.fromUTF8?_toUTF8]

/-- A file in the working directory is read as before when the store in `snaps` has been written. -/
theorem textAt_of_write {files : List (Place × Entry)} {name text : String} {stage : Stage}
    {groups : Snapshot} {answer : Except Snapshot.Fault String} {w₁ : Workspace}
    (ready : Store.Ready ⟨"snaps"⟩ (placedBefore files))
    (put : Ends (Store.write ⟨"snaps"⟩ stage groups) (placedBefore files) answer w₁)
    (plain : Route.Plain name)
    (file : Workspace.entry? (placedBefore files) [name] = some (.file text.toUTF8.toList)) :
    textAt w₁ name = .ok text := by
  have home : (placedBefore files).Leads (.ofText "") [] := by
    rw [show Route.ofText "" = ⟨false, [], false⟩ by decide +kernel]
    exact ⟨rfl, rfl⟩
  have here : joinPath "" name = name := by simp [joinPath]
  have short : (joinPath "" name).utf8ByteSize ≤ Workspace.pathLimit :=
    Nat.le_trans (here ▸ plain.short) (by decide)
  have apart (own : String) : [name] ≠ Store.placeOf ⟨"snaps"⟩ (placedBefore files) own := by
    rw [placedBefore, Store.placeOf_snaps]
    simp
  have read := ready.read_of_write put plain ⟨short, [], home, rfl⟩ (fun own _ => apart own) file
  rw [textAt, ← here, read]
  exact textOfBytes_toUTF8 text

/-- The traffic of a log with a fault. -/
theorem ends_loadTraffic_fault {log text : String} {f : Graph.Fault}
    (file : textAt w log = .ok text) (fault : extend .empty text = .error f) :
    Ends (loadTraffic [log]) w (.ok (.error (graphReport log f))) w := by
  have loaded : Ends (loadGraph .empty [log]) w (.ok (.error (graphReport log f))) w := by
    rw [Ends, run_loadGraph_cons, file]
    simp only [fault]
  exact loaded.bind rfl

/-- A block of the chip with a place of its own. -/
def blockSource : String :=
  "DIMENSION FPGA 100,100;\nAREAGROUP a = None;\nLOCATION a 50,50;\nDIMENSION a 20,20;\n"

/-- A block to place and a log that does not load, beside an earlier plan. -/
def faultyLog : Workspace :=
  placedBefore [textFile "top.cons" blockSource, textFile "bad.log" "DanglingSend:nonsense\n"]

/-- A run that finds a record of a log to be malformed ends without a placement and keeps the
earlier one; what is cut afterwards is cut along it. -/
theorem stale_plan_of_malformed_log : ∃ w', Store.Clean ⟨"snaps"⟩ faultyLog ∧
    Ends (place {} {} (placing ["bad.log"])) faultyLog (.ok 1) w' ∧
    ¬ Wrote {} {} (placing ["bad.log"]) faultyLog w' ∧
    Ends (storedPlan ⟨"snaps"⟩ true) w' (.ok (some (.ofGroups Store.sampleGroups))) w' := by
  have ready : Store.Ready ⟨"snaps"⟩ faultyLog := ready_placedBefore (by simp [textFile])
  have read :
      Ends (readInputs {} (placing ["bad.log"])) faultyLog (.ok (lone blockSource)) faultyLog :=
    ends_readInputs (by decide +kernel) (by decide +kernel) _
  obtain ⟨plan, planned⟩ : ∃ plan, planOf "top.cons" blockSource .empty {} = .ok plan := by
    have sound : (planOf "top.cons" blockSource .empty {}).isOk = true := by decide +kernel
    cases h : planOf "top.cons" blockSource .empty {} with
    | ok plan => exact ⟨plan, rfl⟩
    | error d =>
        rw [h] at sound
        cases sound
  obtain ⟨f, malformed⟩ : ∃ f, extend .empty "DanglingSend:nonsense\n" = .error f := by
    have faulty : (extend .empty "DanglingSend:nonsense\n").isOk = false := by decide +kernel
    cases h : extend .empty "DanglingSend:nonsense\n" with
    | ok g =>
        rw [h] at faulty
        cases faulty
    | error f => exact ⟨f, rfl⟩
  obtain ⟨w₁, put, -⟩ := ready.write_succeeds .elaborated plan.groups
  have plain : Route.Plain "bad.log" := by constructor <;> decide
  have loaded := ends_loadTraffic_fault (textAt_of_write ready put plain rfl) malformed
  have elaborated : Elaborates {} (placing ["bad.log"]) faultyLog (lone blockSource) plan w₁ :=
    ⟨read, planned, _, put⟩
  obtain ⟨w', ran, unplaced, same⟩ := elaborated.keeps_plan ready.toClean loaded
  rw [exitCode_graphReport] at ran
  refine ⟨w', ready.toClean, ran, unplaced, ?_⟩
  have kept : Store.content ⟨"snaps"⟩ w' .placed = some (.ok Store.sampleGroups) :=
    (same .placed (by decide)).trans (content_placedBefore _)
  have followed := ends_storedPlan ⟨"snaps"⟩ w'
  rwa [kept] at followed

end HardwareLinker.Command
