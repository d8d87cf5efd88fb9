import HardwareLinker.Command.Tour
import HardwareLinker.Proofs.Command.Treecut
import HardwareLinker.Proofs.Floorplan.Chosen
import HardwareLinker.Proofs.Floorplan.Elaboration
import HardwareLinker.Proofs.Tour.Permutation

/-!
Placements and cuts that share a store, in any order and with any end. Groups with paths are never
there without a placement, and they are those of the placement that was last cut along. A later
placement does not delete them, so that they go out of date until something is cut again; as long as
they are not, what a tour lists are the groups of the latest placement.
-/

namespace HardwareLinker

/-- The same group at the same place with the same size. -/
structure AreaGroup.SamePlace {α : Type} (g h : AreaGroup α) : Prop where
  name : h.name = g.name
  x : h.x = g.x
  y : h.y = g.y
  dimension : h.dimension = g.dimension

theorem AreaGroup.SamePlace.refl {α : Type} (g : AreaGroup α) : g.SamePlace g :=
  ⟨rfl, rfl, rfl, rfl⟩

theorem Floorplan.annotate_related {α : Type} (p : Floorplan α) (paths : NameMap String) :
    NameMap.Related AreaGroup.SamePlace p.groups (p.annotate paths).2.groups := by
  refine (NameMap.Related.refl AreaGroup.SamePlace.refl p.groups).mapValues
    fun name g h _ same => ?_
  dsimp only
  split
  · exact ⟨same.name, same.x, same.y, same.dimension⟩
  · exact same

namespace Command

open Snapshot (Store decode encode)
open Snapshot.Store (Contents)

variable {s : Surroundings} {globals : Globals} {store : Store} {w w' : Workspace}
  {latest cut : Option Snapshot}

/-! ### What a placement leaves -/

/-- What is gone or as it was, and is there now, was there before. -/
theorem before_of_now {β : Type} {old new : Option β} {v : β} (h : new = none ∨ new = old)
    (found : new = some v) : old = some v := by
  obtain rfl | rfl := h
  · cases found
  · exact found

/-- The groups with paths are gone or as they were; they do not stay without a placement. -/
structure Orderly (held held' : Contents) : Prop where
  final : held' .final = none ∨ held' .final = held .final
  paired : (held .placed = none → held .final = none) → held' .placed = none → held' .final = none

instance : IsPreorder Contents Orderly where
  refl _ := ⟨.inr rfl, id⟩
  trans _ _ _ h h' :=
    ⟨h'.final.elim .inl fun same => same ▸ h.final, fun paired => h'.paired (h.paired paired)⟩

theorem orderly_finish {reports : List Diagnostic} :
    store.Turns Orderly (finish s globals reports) :=
  Store.turns_of_same fun _ _ _ ran => (ends_finish ran).2

/-- Where the placement cannot be removed there is none, and then there are no groups with paths
either. -/
theorem orderly_discardPlacement :
    store.Turns Orderly (discardPlacement store : Action (StateM Workspace) Unit) := by
  intro w result w' ran clean
  rw [discardPlacement_eq] at ran
  obtain ⟨_, w₁, first, later⟩ | ⟨line, first, -⟩ := ends_bind.mp ran
  · obtain ⟨_, first, -⟩ := ends_adapt.mp first
    have clean₁ := (Store.removed_of_ends clean first).clean
    have emptied : store.Clean w' ∧ store.content w' .final = none := by
      obtain ⟨_, w₂, second, later⟩ | ⟨line, second, -⟩ := ends_bind.mp later <;>
        obtain ⟨_, second, -⟩ := ends_adapt.mp second
      · obtain ⟨-, rfl⟩ := ends_pure.mp later
        exact ⟨(Store.removed_of_ends clean₁ second).clean,
          Store.content_of_ends_remove clean₁ second⟩
      · exact ⟨(Store.removed_of_ends clean₁ second).clean,
          Store.content_of_ends_remove clean₁ second⟩
    exact ⟨emptied.1, .inl emptied.2, fun _ _ => emptied.2⟩
  · obtain ⟨answer, first, failed⟩ := ends_adapt.mp first
    cases answer with
    | ok found => cases failed
    | error fault =>
        have removed := Store.removed_of_ends clean first
        have kept : store.content w' .final = store.content w .final := removed.others _ (by decide)
        refine ⟨removed.clean, .inr kept, fun paired _ => ?_⟩
        rw [kept, paired (Store.content_of_remove_error first)]

theorem orderly_giveUp {d : Diagnostic} : store.Turns Orderly (giveUp s globals store d) :=
  orderly_discardPlacement.bind fun _ => orderly_finish

theorem orderly_place {a : PlaceArguments} :
    Store.Turns ⟨a.snapshots⟩ Orderly (place s globals a) := by
  rw [place_eq]
  refine (Store.turns_of_reads (reads_readInputs globals a)).bind fun i => ?_
  unfold placeInputs
  split
  · exact orderly_giveUp
  next plan _ =>
  refine (Store.turns_write fun held => ⟨.inr rfl, id⟩).adapt.bind fun _ => ?_
  refine (Store.turns_of_reads (reads_loadTraffic a.logs)).bind fun answer => ?_
  cases answer with
  | error d => exact orderly_finish
  | ok traffic =>
      dsimp only
      rw [placePlan_eq]
      refine (Store.turns_of_reads fun w => congrArg Prod.snd (ends_prior a w)).bind fun prior => ?_
      unfold concludePlacement
      split
      · exact orderly_giveUp
      · refine (Store.turns_write fun held => ⟨.inr rfl, nofun⟩).adapt.bind fun _ => ?_
        exact (Store.turns_of_same fun _ _ _ ran => (ends_showPlan ran).2).bind fun _ =>
          orderly_finish

/-! ### Histories -/

/-- Placements and cuts on a store that is empty at first, with any options, files and ends, and
between them anything that leaves the stored plans alone. Told along are the groups of the latest
placement and those that were last cut along, as far as there have been any. -/
inductive History (store : Store) : (latest cut : Option Snapshot) → Workspace → Prop
  | start {w : Workspace} (clean : store.Clean w) (empty : ∀ stage, store.content w stage = none) :
    History store none none w
  | placed {latest cut : Option Snapshot} {w w' : Workspace} {s : Surroundings} {globals : Globals}
    {a : PlaceArguments} {result : Except String Nat} {placed : Floorplan Binary64}
    (before : History store latest cut w) (here : store = ⟨a.snapshots⟩)
    (ran : Ends (place s globals a) w result w') (places : Places s globals a w placed)
    (wrote : store.content w' .placed = some (decode .placed (encode .placed placed.groups)))
    (fits : (Snapshot.groupsCodec.write placed.groups).length < Codec.byteLimit) :
    History store (some placed.groups) cut w'
  | unplaced {latest cut : Option Snapshot} {w w' : Workspace} {s : Surroundings}
      {globals : Globals}
    {a : PlaceArguments} {result : Except String Nat}
    (before : History store latest cut w) (here : store = ⟨a.snapshots⟩)
    (ran : Ends (place s globals a) w result w') (unplaced : ¬ Wrote s globals a w w') :
    History store latest cut w'
  | cut {latest cut : Option Snapshot} {w w' : Workspace} {s : Surroundings} {globals : Globals}
    {a : TreecutArguments} {result : Except String Nat} {groups : Snapshot} {paths : NameMap String}
    (before : History store latest cut w) (here : store = ⟨a.snapshots⟩)
    (apart : ReportsApart a store w) (ran : Ends (treecut s globals a) w result w')
    (followed : store.content w .placed = some (.ok groups))
    (wrote : store.content w' .final =
      some (decode .final (encode .final ((Floorplan.ofGroups groups).annotate paths).2.groups)))
    (fits : (Snapshot.groupsCodec.write
      ((Floorplan.ofGroups groups).annotate paths).2.groups).length < Codec.byteLimit) :
    History store latest (some groups) w'
  | uncut {latest cut : Option Snapshot} {w w' : Workspace} {s : Surroundings} {globals : Globals}
    {a : TreecutArguments} {result : Except String Nat}
    (before : History store latest cut w) (here : store = ⟨a.snapshots⟩)
    (apart : ReportsApart a store w) (ran : Ends (treecut s globals a) w result w')
    (uncut : ∀ plan, placement store w = some plan → ¬ Annotates plan (store.content w')) :
    History store latest cut w'
  | meanwhile {latest cut : Option Snapshot} {w w' : Workspace}
      (before : History store latest cut w)
    (clean : store.Clean w') (same : SamePlan store w w') : History store latest cut w'

/-- The store holds the latest placement or none, and with it the groups that were last cut along,
with paths, or none. -/
structure Held (store : Store) (latest cut : Option Snapshot) (w : Workspace) : Prop where
  clean : store.Clean w
  placed : ∀ decoded, store.content w .placed = some decoded →
    ∃ groups, latest = some groups ∧ decoded = .ok groups
  final : ∀ decoded, store.content w .final = some decoded →
    ∃ plan groups, cut = some plan ∧ decoded = .ok groups ∧
      NameMap.Related AreaGroup.SamePlace plan groups
  paired : store.content w .placed = none → store.content w .final = none

namespace Held

/-- A run that stores no new placement. -/
theorem unplaced {a : PlaceArguments} {result : Except String Nat}
    (held : Held ⟨a.snapshots⟩ latest cut w)
    (ran : Ends (place s globals a) w result w') (unplaced : ¬ Wrote s globals a w w') :
    Held ⟨a.snapshots⟩ latest cut w' := by
  obtain ⟨clean', orderly⟩ := orderly_place ran held.clean
  have old : NoNewPlan ⟨a.snapshots⟩ w w' := by
    obtain gone | ⟨-, same⟩ | ⟨line, -, refused⟩ :=
      (ended_place held.clean ran).resolve_left unplaced
    · intro stage plan
      cases stage with
      | elaborated => exact absurd rfl plan
      | placed => exact .inl gone.placed
      | final => exact .inl gone.final
    · exact fun stage plan => .inr (same stage plan)
    · exact refused.left
  exact ⟨clean',
    fun decoded found => held.placed decoded (before_of_now (old .placed (by decide)) found),
    fun decoded found => held.final decoded (before_of_now (old .final (by decide)) found),
    orderly.paired held.paired⟩

end Held

/-- **What a store holds.** After any history there are groups with paths only beside a placement;
the placement is the latest one, and the groups with paths are those that were last cut along. -/
theorem History.held (history : History store latest cut w) : Held store latest cut w := by
  induction history with
  | start clean empty =>
      refine ⟨clean, fun decoded found => ?_, fun decoded found => ?_, fun _ => empty _⟩ <;>
        rw [empty] at found <;> cases found
  | placed before here ran places wrote fits held =>
      subst here
      obtain ⟨clean', orderly⟩ := orderly_place ran held.clean
      rw [Snapshot.decode_encode _ _ fits] at wrote
      refine ⟨clean', fun decoded found => ?_, fun decoded found => ?_, fun none => ?_⟩
      · rw [wrote] at found
        cases found
        exact ⟨_, rfl, rfl⟩
      · exact held.final decoded (before_of_now orderly.final found)
      · rw [wrote] at none
        cases none
  | unplaced before here ran unplaced held =>
      subst here
      exact held.unplaced ran unplaced
  | cut before here apart ran followed wrote fits held =>
      subst here
      obtain ⟨clean', follows⟩ := follows_treecut held.clean apart ran
      rw [Snapshot.decode_encode _ _ fits] at wrote
      refine ⟨clean', fun decoded found => ?_, fun decoded found => ?_, fun none => ?_⟩
      · exact held.placed decoded (follows.placed ▸ found)
      · rw [wrote] at found
        cases found
        exact ⟨_, _, rfl, rfl, Floorplan.annotate_related (.ofGroups _) _⟩
      · rw [follows.placed, followed] at none
        cases none
  | uncut before here apart ran uncut held =>
      subst here
      obtain ⟨clean', follows⟩ := follows_treecut held.clean apart ran
      have same := follows.final.resolve_right fun ⟨plan, followed, annotates⟩ =>
        uncut plan followed annotates
      refine ⟨clean', fun decoded found => ?_, fun decoded found => ?_, fun none => ?_⟩
      · exact held.placed decoded (follows.placed ▸ found)
      · exact held.final decoded (same ▸ found)
      · rw [same]
        exact held.paired (follows.placed ▸ none)
  | meanwhile before clean same held =>
      have placed := same .placed (by decide)
      have final := same .final (by decide)
      refine ⟨clean, fun decoded found => ?_, fun decoded found => ?_, fun none => ?_⟩
      · exact held.placed decoded (placed ▸ found)
      · exact held.final decoded (final ▸ found)
      · rw [final]
        exact held.paired (placed ▸ none)

/-! ### Tours -/

/-- Every group has its name and a centre. -/
structure Located (groups : Snapshot) : Prop where
  keyed : AreaGroup.Keyed groups
  placed : ∀ g ∈ groups.values, g.isPlaced = true

theorem Places.located {a : PlaceArguments} {placed : Floorplan Binary64}
    (places : Places s globals a w placed) : Located placed.groups := by
  obtain ⟨elaborated, loaded, solved⟩ := places
  refine ⟨?_, Floorplan.isPlaced_of_solve solved⟩
  obtain ⟨set, read, planned⟩ := bind_eq_ok elaborated.planned
  rw [mapError_eq_ok_iff] at read planned
  have keyed := (Floorplan.elaborate_spec (ConstraintSet.keyed_ofText read) planned).1
  exact (keyed.solve_completes solved).keyed (keyed.base _ _)

theorem History.located (history : History store latest cut w) :
    ∀ groups, latest = some groups → Located groups := by
  induction history with
  | start => nofun
  | placed _ _ _ places =>
      rintro groups ⟨⟩
      exact places.located
  | unplaced _ _ _ _ ih | cut _ _ _ _ _ _ _ ih | uncut _ _ _ _ _ ih | meanwhile _ _ _ ih => exact ih

/-- A tour of groups in the places of these lists each of them once. -/
theorem Located.tour_perm {groups shown : Snapshot} (located : Located groups)
    (same : NameMap.Related AreaGroup.SamePlace groups shown) (settings : TourSettings Binary64) :
    (Tour.ofGroups (.ofGroups shown) settings).Perm groups.keys := by
  have keyed : (Floorplan.ofGroups shown).Keyed := by
    rintro ⟨name, h⟩ mem
    obtain ⟨g, found, there⟩ := same.origin (NameMap.find?_eq_some.mpr mem)
    exact there.name.trans (located.keyed.name_eq found)
  have centred : ∀ h ∈ shown.values, h.centre?.isSome = true := by
    intro h mem
    obtain ⟨name, listed⟩ := NameMap.mem_values_iff.mp mem
    obtain ⟨g, found, there⟩ := same.origin listed
    have placed := located.placed g (NameMap.mem_values_iff.mpr ⟨_, found⟩)
    obtain ⟨b, bounds⟩ := AreaGroup.isPlaced_iff.mp placed
    obtain ⟨c, centre, -⟩ := Option.bind_eq_some_iff.mp bounds
    rw [AreaGroup.centre?, there.x, there.y]
    exact Option.isSome_iff_exists.mpr ⟨c, centre⟩
  have names : shown.keys = groups.keys := by
    refine NameMap.keys_eq_of_mem fun name => ?_
    rw [NameMap.mem_keys_iff, NameMap.mem_keys_iff]
    constructor
    · rintro ⟨h, found⟩
      exact (same.origin found).imp fun _ => And.left
    · rintro ⟨g, found⟩
      exact (same.image found).imp fun _ => And.left
  have listed := Tour.groupOrder_perm Tour.keyStreamSource
    (Tour.KeyStream.ofSeed settings.seed.toUInt64) (.ofGroups shown) settings
  rw [show (Floorplan.ofGroups shown).groups = shown from rfl,
    List.filter_eq_self.mpr centred] at listed
  rw [← names]
  exact keyed.values_name ▸ listed

theorem ends_listed (globals : Globals) (w : Workspace) (text line : String) :
    ∃ w', Ends (do print text; progress globals line; return 0) w (.ok 0) w' ∧
      w'.printed = w.printed ++ text := by
  unfold progress
  cases globals.quiet <;> exact ⟨_, rfl, rfl⟩

/-- Where the settings can be read, a tour of stored groups is listed. -/
theorem ends_tour {a : TourArguments} {configured : Settings Binary64} {stage : Stage}
    {groups : Snapshot} (read : Ends (settings globals) w (.ok configured) w)
    (shown : stage = if (Store.content ⟨a.snapshots⟩ w .final).isSome then .final else .placed)
    (held : Store.content ⟨a.snapshots⟩ w stage = some (.ok groups)) :
    ∃ (settings : TourSettings Binary64) (w' : Workspace), Ends (tour globals a) w (.ok 0) w' ∧
      w'.printed = w.printed ++
        String.join ((Tour.ofGroups (.ofGroups groups) settings).map (· ++ "\n")) := by
  have looked :
      Ends (ExceptT.lift (latestStage ⟨a.snapshots⟩)) w (.ok stage : Except String Stage) w := by
    have holds : (latestStage ⟨a.snapshots⟩ : StateM Workspace Stage).run w = (stage, w) := by
      rw [shown]
      exact run_bind (Store.shows_content ⟨a.snapshots⟩ w .final).holds
    rw [ends_lift, holds]
    exact ⟨rfl, rfl⟩
  have stored : Ends (stored (Store.read ⟨a.snapshots⟩ stage)) w (.ok groups) w := by
    obtain ⟨answer, ran, same⟩ := (Store.shows_content ⟨a.snapshots⟩ w stage).read
    rw [held] at same
    exact ends_adapt.mpr ⟨answer, ran, same ▸ rfl⟩
  let settings := { configured.tour with seed := a.seed.getD configured.tour.seed }
  let order := Tour.ofGroups (.ofGroups groups) settings
  obtain ⟨w', ended, printed⟩ := ends_listed globals w (String.join (order.map (· ++ "\n")))
    (orderedLine order stage)
  exact ⟨settings, w', read.bind <| looked.bind <| stored.bind ended, printed⟩

/-- **Later commands see the current placement.** After any history there are groups with paths only
beside the latest placement. As long as there are none, or they come from that placement, they are
its groups at their places with their sizes; then a tour that can read its settings lists the groups
of the latest placement, each of them once, if that has not been deleted since. -/
theorem History.tour_lists_latest (history : History store latest cut w) :
    (∀ decoded, store.content w .final = some decoded →
      ∃ placed, latest = some placed ∧ store.content w .placed = some (.ok placed)) ∧
    (store.content w .final = none ∨ cut = latest →
      (∀ decoded, store.content w .final = some decoded →
        ∃ placed groups, latest = some placed ∧ decoded = .ok groups ∧
          NameMap.Related AreaGroup.SamePlace placed groups) ∧
      ∀ (globals : Globals) (a : TourArguments) (configured : Settings Binary64),
        store = ⟨a.snapshots⟩ → store.content w .placed ≠ none →
        Ends (settings globals) w (.ok configured) w →
        ∃ (placed : Snapshot) (order : List String) (w' : Workspace),
          latest = some placed ∧ order.Perm placed.keys ∧
          Ends (tour globals a) w (.ok 0) w' ∧
          w'.printed = w.printed ++ String.join (order.map (· ++ "\n"))) := by
  have held := history.held
  have followed : store.content w .final = none ∨ cut = latest →
      ∀ decoded, store.content w .final = some decoded →
        ∃ placed groups, latest = some placed ∧ decoded = .ok groups ∧
          NameMap.Related AreaGroup.SamePlace placed groups := by
    rintro (none | rfl) decoded found
    · rw [none] at found
      cases found
    · exact held.final decoded found
  refine ⟨fun decoded found => ?_, fun current => ⟨followed current, ?_⟩⟩
  · obtain ⟨held', there⟩ := Option.ne_none_iff_exists'.mp fun none => by
      rw [held.paired none] at found
      cases found
    obtain ⟨placed, last, rfl⟩ := held.placed held' there
    exact ⟨placed, last, there⟩
  · rintro globals a configured rfl present read
    obtain ⟨decoded, there⟩ := Option.ne_none_iff_exists'.mp present
    obtain ⟨placed, last, rfl⟩ := held.placed decoded there
    have located := history.located placed last
    cases annotated : Store.content ⟨a.snapshots⟩ w .final with
    | none =>
        obtain ⟨settings, w', ended, printed⟩ := ends_tour read (by rw [annotated]; rfl) there
        exact ⟨placed, _, w', last, located.tour_perm (.refl .refl _) settings,
          ended, printed⟩
    | some decoded =>
        obtain ⟨placed', groups, last', rfl, same⟩ := followed current decoded annotated
        obtain rfl := Option.some.inj (last.symm.trans last')
        obtain ⟨settings, w', ended, printed⟩ := ends_tour read (by rw [annotated]; rfl) annotated
        exact ⟨placed, _, w', last, located.tour_perm same settings, ended, printed⟩

/-! ### A block that is placed, cut along and replaced -/

/-- A block of the chip with a place of its own. -/
def blockPlan (name : String) : Floorplan Binary64 :=
  { chip := ⟨Scalar.ofNat 100, Scalar.ofNat 100⟩
    groups := .ofList [(name,
      { name, area := 0, x := some (Scalar.ofNat 50), y := some (Scalar.ofNat 50)
        dimension := .fixed ⟨Scalar.ofNat 20, Scalar.ofNat 20⟩ })] }

def blockText (name : String) : String :=
  "DIMENSION FPGA 100,100;\nAREAGROUP " ++ name ++ " = None;\nLOCATION " ++ name ++
    " 50,50;\nDIMENSION " ++ name ++ " 20,20;\n"

/-- A module of its own, which is no group. -/
def lonelyText : String := "DanglingSend:\x7bBit#(8)\x7d:0:debug:True:8:m:None\n"

/-- The files of a store that holds blocks, and texts beside it. -/
def blockFiles (plans : List (Stage × String)) (texts : List (String × String)) :
    List (Place × Entry) :=
  (plans.map fun e => (["snaps", Store.fileName e.1], .file (encode e.1 (blockPlan e.2).groups))) ++
    texts.map fun e => textFile e.1 e.2

/-- A store that holds blocks, with texts beside it. -/
def blockStore (plans : List (Stage × String)) (texts : List (String × String)) : Workspace :=
  Store.snapsBeside (blockFiles plans texts)

section

variable {plans : List (Stage × String)} {texts : List (String × String)}

theorem solid_blockFiles : ∀ e ∈ blockFiles plans texts, ∃ bytes, e.2 = .file bytes := by
  intro e he
  rcases List.mem_append.mp he with he | he <;> obtain ⟨_, -, rfl⟩ := List.mem_map.mp he <;>
    exact ⟨_, rfl⟩

theorem ready_blockStore : Store.Ready ⟨"snaps"⟩ (blockStore plans texts) :=
  Store.ready_snapsBeside solid_blockFiles

/-- A history may go on with the same plans beside other texts. -/
theorem History.resume (history : History ⟨"snaps"⟩ latest cut w)
    (placed : Store.content ⟨"snaps"⟩ (blockStore plans texts) .placed =
      Store.content ⟨"snaps"⟩ w .placed)
    (final : Store.content ⟨"snaps"⟩ (blockStore plans texts) .final =
      Store.content ⟨"snaps"⟩ w .final) :
    History ⟨"snaps"⟩ latest cut (blockStore plans texts) := by
  refine history.meanwhile ready_blockStore.toClean fun stage plan => ?_
  cases stage with
  | elaborated => exact absurd rfl plan
  | placed => exact placed
  | final => exact final

/-- Placement without traffic and with the settings of a directory that has none. -/
def bareRun : Floorplan.Run Binary64 :=
  { traffic := .empty, solver := Milp.solverOf {} ({} : Surroundings).launch, settings := {} }

/-- A block that the store does not know is placed where it is. -/
theorem stores_block (name : String) {prior : Option Snapshot}
    (unset : (blockStore plans texts).read Settings.fileName = .error .notFound)
    (file : textAt (blockStore plans texts) "top.cons" = .ok (blockText name))
    (planned : planOf "top.cons" (blockText name) .empty {} = .ok (blockPlan name))
    (held : (Store.content ⟨"snaps"⟩ (blockStore plans texts) .placed).bind Except.toOption = prior)
    (same : bareRun.base (blockPlan name) prior = blockPlan name)
    (complete : ∀ g ∈ (blockPlan name).groups.values, g.isPlaced = true) :
    ∃ w', Ends (place {} {} (placing [])) (blockStore plans texts) (.ok 0) w' ∧
      Places {} {} (placing []) (blockStore plans texts) (blockPlan name) ∧
      Store.content ⟨"snaps"⟩ w' .placed =
        some (decode .placed (encode .placed (blockPlan name).groups)) ∧
      Store.content ⟨"snaps"⟩ w' .final =
        Store.content ⟨"snaps"⟩ (blockStore plans texts) .final := by
  have ready : Store.Ready ⟨"snaps"⟩ (blockStore plans texts) := ready_blockStore
  have read : Ends (readInputs {} (placing [])) (blockStore plans texts)
      (.ok (lone (blockText name))) (blockStore plans texts) :=
    (ends_settings unset).bind <| (ends_readText file).bind rfl
  obtain ⟨w₁, put, -⟩ := ready.write_succeeds .elaborated (blockPlan name).groups
  have elaborated : Elaborates {} (placing []) (blockStore plans texts) (lone (blockText name))
      (blockPlan name) w₁ := ⟨read, planned, _, put⟩
  have loaded : Ends (loadTraffic []) w₁ (.ok (.ok .empty)) w₁ := rfl
  have known : priorOf (placing []) w₁ = prior := by
    rw [← held, ← (Store.written_of_ends ready.toClean put).others .placed (by decide)]
    rfl
  have solved :
      bareRun.solve (blockPlan name) (priorOf (placing []) w₁) = .ok (blockPlan name) := by
    rw [← same] at complete
    rw [known, Floorplan.solve_of_placed complete, same]
  obtain ⟨w', ran, placed, final⟩ := elaborated.stores_placement ready loaded solved
  exact ⟨w', ran, .solved elaborated loaded solved, placed, final⟩

end

theorem fits_block :
    (Snapshot.groupsCodec.write (blockPlan "a").groups).length < Codec.byteLimit := by
  decide +kernel

theorem fits_otherBlock :
    (Snapshot.groupsCodec.write (blockPlan "b").groups).length < Codec.byteLimit := by
  decide +kernel

/-- The block is placed. -/
theorem history_placed : History ⟨"snaps"⟩ (some (blockPlan "a").groups) none
    (blockStore [(.placed, "a")] [("m.log", lonelyText)]) := by
  have empty (stage : Stage) :
      Store.content ⟨"snaps"⟩ (blockStore [] [("top.cons", blockText "a")]) stage = none :=
    Store.content_snapsBeside_none solid_blockFiles (by cases stage <;> rfl)
  have unset : (blockStore [] [("top.cons", blockText "a")]).read Settings.fileName =
      .error .notFound := by decide +kernel
  obtain ⟨w', ran, places, wrote, kept⟩ := stores_block "a" unset (by decide +kernel)
    (by decide +kernel) rfl (by rw [empty]; decide +kernel) (by decide +kernel)
  have placed :=
    (History.start ready_blockStore.toClean empty).placed rfl ran places wrote fits_block
  rw [Snapshot.decode_encode _ _ fits_block] at wrote
  refine placed.resume ?_ ?_
  · rw [wrote]
    exact Store.content_snapsBeside rfl fits_block
  · rw [kept, empty]
    exact Store.content_snapsBeside_none solid_blockFiles rfl

/-- There is a tree of the lonely module; it has no path for the block. -/
theorem exists_lonelyTree : ∃ (g : Graph Binary64) (tree : MergeTree Binary64),
    extend .empty lonelyText = .ok g ∧ (review {} false g).accepted = true ∧
    MergeTree.build (review {} false g).graph
      (guideOf {} (review {} false g).graph (.ofGroups (blockPlan "a").groups))
      ({} : Settings Binary64).tree.ruleThreshold = .ok tree ∧
    ((Floorplan.ofGroups (blockPlan "a").groups).annotate tree.modulePaths).2.groups =
      (blockPlan "a").groups := by
  have sound : (extend .empty lonelyText).toOption.any (fun g => (review {} false g).accepted &&
      (MergeTree.build (review {} false g).graph
        (guideOf {} (review {} false g).graph (.ofGroups (blockPlan "a").groups))
        ({} : Settings Binary64).tree.ruleThreshold).toOption.any fun tree =>
          ((Floorplan.ofGroups (blockPlan "a").groups).annotate tree.modulePaths).2.groups =
            (blockPlan "a").groups) = true := by decide +kernel
  obtain ⟨g, loaded, sound⟩ := (Option.any_eq_true _ _).mp sound
  obtain ⟨accepted, sound⟩ := Bool.and_eq_true_iff.mp sound
  obtain ⟨tree, built, same⟩ := (Option.any_eq_true _ _).mp sound
  exact ⟨g, tree, toOption_eq_some.mp loaded, accepted, toOption_eq_some.mp built,
    of_decide_eq_true same⟩

/-- The lonely module is cut along the block. -/
theorem history_cut : History ⟨"snaps"⟩ (some (blockPlan "a").groups) (some (blockPlan "a").groups)
    (blockStore [(.placed, "a"), (.final, "a")] [("top.cons", blockText "b")]) := by
  let a : TreecutArguments := { logs := ["m.log"], snapshots := "snaps" }
  have held :
      Store.content ⟨"snaps"⟩ (blockStore [(.placed, "a")] [("m.log", lonelyText)]) .placed =
        some (.ok (blockPlan "a").groups) := Store.content_snapsBeside rfl fits_block
  obtain ⟨g, tree, extended, accepted, built, same⟩ := exists_lonelyTree
  have loaded :
      Ends (loadGraph .empty ["m.log"]) (blockStore [(.placed, "a")] [("m.log", lonelyText)])
        (.ok (.ok g)) (blockStore [(.placed, "a")] [("m.log", lonelyText)]) := by
    have text :
        textAt (blockStore [(.placed, "a")] [("m.log", lonelyText)]) "m.log" = .ok lonelyText := by
      decide +kernel
    rw [Ends, run_loadGraph_cons, text]
    simp only [extended]
    rfl
  have apart : ReportsApart a ⟨"snaps"⟩ (blockStore [(.placed, "a")] [("m.log", lonelyText)]) := by
    intro path output
    cases output
  obtain ⟨result, w', ran, wrote⟩ := stores_annotated (s := {}) (a := a) ready_blockStore
    (ends_settings (by decide +kernel)) loaded rfl accepted rfl held built rfl
  have kept := (follows_treecut ready_blockStore.toClean apart ran).2.placed
  have cut := history_placed.cut rfl apart ran held wrote (by rw [same]; exact fits_block)
  rw [same, Snapshot.decode_encode _ _ fits_block] at wrote
  refine cut.resume ?_ ?_
  · rw [kept, held]
    exact Store.content_snapsBeside rfl fits_block
  · rw [wrote]
    exact Store.content_snapsBeside rfl fits_block

/-- After the cut a tour lists the block. -/
theorem tour_lists_latest_block : ∃ (order : List String) (w w' : Workspace),
    History ⟨"snaps"⟩ (some (blockPlan "a").groups) (some (blockPlan "a").groups) w ∧
    Store.content ⟨"snaps"⟩ w .final = some (.ok (blockPlan "a").groups) ∧ order.Perm ["a"] ∧
    Ends (tour {} { snapshots := "snaps" }) w (.ok 0) w' ∧
    w'.printed = String.join (order.map (· ++ "\n")) := by
  have placed : Store.content ⟨"snaps"⟩
      (blockStore [(.placed, "a"), (.final, "a")] [("top.cons", blockText "b")]) .placed =
        some (.ok (blockPlan "a").groups) := Store.content_snapsBeside rfl fits_block
  have final : Store.content ⟨"snaps"⟩
      (blockStore [(.placed, "a"), (.final, "a")] [("top.cons", blockText "b")]) .final =
        some (.ok (blockPlan "a").groups) := Store.content_snapsBeside rfl fits_block
  obtain ⟨-, current⟩ := History.tour_lists_latest history_cut
  obtain ⟨groups, order, w', same, perm, ended, printed⟩ := (current (.inr rfl)).2 {}
    { snapshots := "snaps" } {} rfl (by simp [placed]) (ends_settings (by decide +kernel))
  cases same
  have names : (blockPlan "a").groups.keys = ["a"] := by decide +kernel
  exact ⟨order, _, w', history_cut, final, names ▸ perm, ended, printed⟩

/-- The other block is placed. -/
theorem history_replaced : History ⟨"snaps"⟩ (some (blockPlan "b").groups)
    (some (blockPlan "a").groups) (blockStore [(.placed, "b"), (.final, "a")] []) := by
  have held : Store.content ⟨"snaps"⟩
      (blockStore [(.placed, "a"), (.final, "a")] [("top.cons", blockText "b")]) .placed =
        some (.ok (blockPlan "a").groups) := Store.content_snapsBeside rfl fits_block
  obtain ⟨w', ran, places, wrote, kept⟩ := stores_block "b" (by decide +kernel)
    (by decide +kernel) (by decide +kernel) (congrArg (·.bind Except.toOption) held)
    (by decide +kernel) (by decide +kernel)
  have placed := history_cut.placed rfl ran places wrote fits_otherBlock
  rw [Snapshot.decode_encode _ _ fits_otherBlock] at wrote
  refine placed.resume ?_ ?_
  · rw [wrote]
    exact Store.content_snapsBeside rfl fits_otherBlock
  · rw [kept]
    exact (Store.content_snapsBeside rfl fits_block).trans
      (Store.content_snapsBeside rfl fits_block).symm

/-- **Groups with paths go out of date.** A block is placed, cut along and replaced by another one.
The groups with paths stay those of the first block, and a tour lists it in place of the second. -/
theorem stale_paths_of_replaced_block : ∃ w w' : Workspace,
    History ⟨"snaps"⟩ (some (blockPlan "b").groups) (some (blockPlan "a").groups) w ∧
    Store.content ⟨"snaps"⟩ w .placed = some (.ok (blockPlan "b").groups) ∧
    Store.content ⟨"snaps"⟩ w .final = some (.ok (blockPlan "a").groups) ∧
    Ends (tour {} { snapshots := "snaps" }) w (.ok 0) w' ∧ w'.printed = "a\n" ∧
    (blockPlan "b").groups.keys = ["b"] := by
  have final : Store.content ⟨"snaps"⟩ (blockStore [(.placed, "b"), (.final, "a")] []) .final =
      some (.ok (blockPlan "a").groups) := Store.content_snapsBeside rfl fits_block
  have read : Ends (settings {}) (blockStore [(.placed, "b"), (.final, "a")] []) (.ok {})
      (blockStore [(.placed, "b"), (.final, "a")] []) := ends_settings (by decide +kernel)
  obtain ⟨settings, w', ended, printed⟩ :=
    ends_tour (a := { snapshots := "snaps" }) read (by rw [final]; rfl) final
  have located := history_cut.located _ rfl
  have perm := located.tour_perm (.refl .refl _) settings
  have names : (blockPlan "a").groups.keys = ["a"] := by decide +kernel
  rw [names, List.perm_singleton] at perm
  refine ⟨_, w', history_replaced, Store.content_snapsBeside rfl fits_otherBlock, final, ended, ?_,
    by decide +kernel⟩
  rw [printed, perm]
  rfl

end Command
end HardwareLinker
