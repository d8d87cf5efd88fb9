import HardwareLinker.Proofs.Command.Place

/-!
What a run of `treecut` leaves in a store. It never touches the placement, and of the groups with
paths it leaves either those that were there or those of the placement that it has cut along.
-/

namespace HardwareLinker.Command

open Snapshot (Store decode encode)
open Snapshot.Store (Contents)

variable {s : Surroundings} {globals : Globals} {a : TreecutArguments} {store : Store}
variable {plan : Option (Floorplan Binary64)} {w w' : Workspace}

/-! ### Groups with paths -/

/-- The groups of this plan are stored with paths. -/
def Annotates (plan : Floorplan Binary64) (held : Contents) : Prop :=
  ∃ paths, held .final = some (decode .final (encode .final (plan.annotate paths).2.groups))

/-- The placement is left as it was; there are no groups with paths but those that were there and
those of the plan. -/
structure FollowsPlan (plan : Option (Floorplan Binary64)) (held held' : Contents) : Prop where
  placed : held' .placed = held .placed
  final : held' .final = held .final ∨ ∃ p, plan = some p ∧ Annotates p held'

instance : IsPreorder Contents (FollowsPlan plan) where
  refl _ := ⟨rfl, .inl rfl⟩
  trans held₁ held₂ held₃ h h' := by
    refine ⟨h'.placed.trans h.placed, ?_⟩
    obtain same | annotates := h'.final
    · refine h.final.imp same.trans ?_
      rintro ⟨p, hp, paths, stored⟩
      exact ⟨p, hp, paths, same.trans stored⟩
    · exact .inr annotates

theorem FollowsPlan.of_none {held held' : Contents} (h : FollowsPlan none held held') :
    FollowsPlan plan held held' :=
  ⟨h.placed, .inl (h.final.resolve_right nofun)⟩

/-! ### The parts of a run -/

theorem ends_print {text : String} {result : Except String Unit}
    (ran : Ends (print text) w result w') : result = .ok () ∧ SameFiles w w' := by
  obtain ⟨rfl, rfl⟩ := ends_lift.mp ran
  exact ⟨rfl, _, _, rfl⟩

theorem ends_progress {line : String} {result : Except String Unit}
    (ran : Ends (progress globals line) w result w') : SameFiles w w' := by
  unfold progress at ran
  cases quiet : globals.quiet <;> rw [quiet] at ran <;> obtain ⟨-, rfl⟩ := Prod.mk.inj ran <;>
    exact ⟨_, _, rfl⟩

theorem follows_finish {reports : List Diagnostic} :
    store.Turns (FollowsPlan plan) (finish s globals reports) :=
  Store.turns_of_same fun _ _ _ ran => (ends_finish ran).2

theorem follows_progress {line : String} :
    store.Turns (FollowsPlan plan) (progress globals line : Action (StateM Workspace) Unit) :=
  Store.turns_of_same fun _ _ _ => ends_progress

theorem follows_annotate {p : Floorplan Binary64} {paths : NameMap String} :
    store.Turns (FollowsPlan (some p))
      (stored (store.write .final (p.annotate paths).2.groups) :
        Action (StateM Workspace) String) :=
  (Store.turns_write fun _ => ⟨rfl, .inr ⟨p, rfl, paths, rfl⟩⟩).adapt

/-- The report goes elsewhere than to a file of the store. -/
def ReportsApart (a : TreecutArguments) (store : Store) (w : Workspace) : Prop :=
  ∀ path, a.output = some path → ∀ own, Store.Owns own →
    Workspace.destination w.home (.ofText path) ≠ store.placeOf w own

theorem content_writeReport {text : String} {result : Except String Unit} (clean : store.Clean w)
    (apart : ReportsApart a store w) (ran : Ends (writeReport text a.output) w result w') :
    store.Clean w' ∧ ∀ stage, store.content w' stage = store.content w stage := by
  cases output : a.output with
  | none =>
      rw [output] at ran
      obtain ⟨-, same⟩ := ends_print ran
      exact ⟨clean.sameFiles same, Store.content_sameFiles same⟩
  | some path =>
      rw [output] at ran
      obtain rfl : (Workspace.change (·.write path text.toUTF8.toList) w).2 = w' :=
        (Prod.mk.inj ran).2
      cases wrote : w.write path text.toUTF8.toList with
      | error cause =>
          rw [Workspace.change_of_error (f := (·.write path text.toUTF8.toList)) wrote]
          exact ⟨clean, fun _ => rfl⟩
      | ok w₁ =>
          rw [Workspace.change_of_ok (f := (·.write path text.toUTF8.toList)) wrote]
          obtain rfl | edit := Workspace.editedAt_of_write wrote
          · exact ⟨clean, fun _ => rfl⟩
          · exact clean.editedApart edit (apart path output)

theorem reads_storedPlan (store : Store) (usePlacement : Bool) :
    Reads (storedPlan store usePlacement).run := by
  cases usePlacement with
  | false => exact .pure _
  | true => exact fun w => congrArg Prod.snd (ends_storedPlan store w)

/-- The stored placement. -/
def placement (store : Store) (w : Workspace) : Option (Floorplan Binary64) :=
  ((store.content w .placed).bind Except.toOption).map .ofGroups

/-- A plan that is followed is the stored placement. -/
theorem storedPlan_eq {usePlacement : Bool}
    (ran : Ends (storedPlan store usePlacement) w (.ok plan) w') :
    plan = none ∨ plan = placement store w := by
  cases usePlacement with
  | false =>
      cases ran
      exact .inl rfl
  | true => exact .inr (Except.ok.inj (ran.unique (ends_storedPlan store w)).1)

/-! ### Runs -/

theorem follows_cutGraph {settings : Settings Binary64} {r : Reviewed} {result : Except String Nat}
    (clean : Store.Clean ⟨a.snapshots⟩ w) (apart : ReportsApart a ⟨a.snapshots⟩ w)
    (ran : Ends (cutGraph s globals a settings r) w result w') : Store.Clean ⟨a.snapshots⟩ w' ∧
      FollowsPlan (placement ⟨a.snapshots⟩ w) (Store.content ⟨a.snapshots⟩ w)
        (Store.content ⟨a.snapshots⟩ w') := by
  unfold cutGraph at ran
  obtain ⟨plan, w₁, looked, later⟩ | ⟨line, looked, -⟩ := ends_bind.mp ran
  · obtain rfl := (reads_storedPlan _ _).eq looked
    have followed : Store.Clean ⟨a.snapshots⟩ w' ∧ FollowsPlan plan (Store.content ⟨a.snapshots⟩ w₁)
        (Store.content ⟨a.snapshots⟩ w') := by
      dsimp only at later
      split at later
      · exact follows_finish later clean
      · exact follows_finish later clean
      · cases later
        exact ⟨clean, refl_of _ _⟩
      · next tree _ =>
        obtain ⟨_, w₂, reported, later⟩ | ⟨line, reported, -⟩ := ends_bind.mp later <;>
          obtain ⟨clean, same⟩ := content_writeReport clean apart reported <;>
          rw [← funext same]
        · cases plan with
          | none => exact (follows_progress.bind fun _ => follows_finish) later clean
          | some p =>
              exact (follows_annotate.bind fun _ =>
                follows_progress.bind fun _ => follows_finish) later clean
        · exact ⟨clean, refl_of _ _⟩
    obtain rfl | rfl := storedPlan_eq looked
    · exact ⟨followed.1, followed.2.of_none⟩
    · exact followed
  · obtain rfl := (reads_storedPlan _ _).eq looked
    exact ⟨clean, refl_of _ _⟩

/-- A run leaves the placement alone, and stores no groups with paths but those of the placement. -/
theorem follows_treecut {result : Except String Nat} (clean : Store.Clean ⟨a.snapshots⟩ w)
    (apart : ReportsApart a ⟨a.snapshots⟩ w) (ran : Ends (treecut s globals a) w result w') :
    Store.Clean ⟨a.snapshots⟩ w' ∧ FollowsPlan (placement ⟨a.snapshots⟩ w)
      (Store.content ⟨a.snapshots⟩ w) (Store.content ⟨a.snapshots⟩ w') := by
  unfold treecut at ran
  obtain ⟨settings, w₁, looked, later⟩ | ⟨line, looked, -⟩ := ends_bind.mp ran
  · obtain rfl := (reads_settings globals).eq looked
    obtain ⟨answer, w₂, loaded, later⟩ | ⟨line, loaded, -⟩ := ends_bind.mp later
    · obtain rfl := (reads_loadGraph _ _).eq loaded
      cases answer with
      | error d => exact follows_finish later clean
      | ok g =>
          dsimp only at later
          split at later
          · exact follows_cutGraph clean apart later
          · exact follows_finish later clean
    · obtain rfl := (reads_loadGraph _ _).eq loaded
      exact ⟨clean, refl_of _ _⟩
  · obtain rfl := (reads_settings globals).eq looked
    exact ⟨clean, refl_of _ _⟩

/-- Where the store is ready and there is a tree along the placement, the run stores the groups of
the placement with their paths in it. -/
theorem stores_annotated {configured : Settings Binary64} {g : Graph Binary64} {r : Reviewed}
    {groups : Snapshot} {tree : MergeTree Binary64} (ready : Store.Ready ⟨a.snapshots⟩ w)
    (read : Ends (settings globals) w (.ok configured) w)
    (loaded : Ends (loadGraph .empty a.logs) w (.ok (.ok g)) w)
    (reviewed : review configured.graph a.allowUnmatched g = r) (accepted : r.accepted = true)
    (along : (configured.tree.usePlacement && a.usePlacement) = true)
    (held : Store.content ⟨a.snapshots⟩ w .placed = some (.ok groups))
    (built : MergeTree.build r.graph (guideOf configured.placement r.graph (.ofGroups groups))
      (a.threshold.getD configured.tree.ruleThreshold) = .ok tree) (printed : a.output = none) :
    ∃ result w', Ends (treecut s globals a) w result w' ∧ Store.content ⟨a.snapshots⟩ w' .final =
      some (decode .final
        (encode .final ((Floorplan.ofGroups groups).annotate tree.modulePaths).2.groups)) := by
  have looked := ends_storedPlan ⟨a.snapshots⟩ w
  rw [held] at looked
  obtain ⟨result, w₁, reported⟩ : ∃ result w₁, Ends
    (print ((tree.report r.graph).pretty 0 ++ "\n")) w result w₁ := ⟨_, _, rfl⟩
  obtain ⟨rfl, streams⟩ := ends_print reported
  have ready₁ := ready.sameFiles streams
  obtain ⟨w₂, put, -⟩ := ready₁.write_succeeds .final
    ((Floorplan.ofGroups groups).annotate tree.modulePaths).2.groups
  have written := Store.written_of_ends ready₁.toClean put
  obtain ⟨result, w', ended⟩ : ∃ result w', Ends (do
    progress globals (partitionedLine r.graph tree)
    finish s globals r.reports) w₂ result w' := ⟨_, _, rfl⟩
  refine ⟨result, w', read.bind (loaded.bind ?_), ?_⟩
  · dsimp only
    rw [reviewed, if_pos accepted, cutGraph, along]
    refine looked.bind ?_
    dsimp only [Option.bind_some, Except.toOption, Option.map_some]
    rw [built, printed]
    exact reported.bind (Ends.bind (ends_adapt.mpr ⟨_, put, rfl⟩) ended)
  · have same : SameFiles w₂ w' := by
      obtain ⟨_, w₃, first, later⟩ | ⟨line, first, -⟩ := ends_bind.mp ended
      · exact (ends_progress first).trans (ends_finish later).2
      · exact ends_progress first
    rw [Store.content_sameFiles same, written.stored _ rfl]

end HardwareLinker.Command
