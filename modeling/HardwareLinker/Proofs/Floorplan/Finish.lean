import HardwareLinker.Proofs.Floorplan.Flush

/-!
What a run may touch, whatever the solver answers. A finished plan has the groups of the plan that
it was started with; a placed one is as it was, and any other has a place and a size that it offers
itself, that an earlier run gave it, or that a rule computed. Batch sizes that are given up leave
nothing behind but a solver that has been asked before: the run comes out as if the last size had
been the only one.
-/

namespace HardwareLinker.Floorplan

open AreaGroup Milp

variable {α : Type} [Scalar α] {r : Run α} {p q : Floorplan α}
  {prior : Option (NameMap (AreaGroup α))}

/-! ### One batch size alone -/

/-- The run with a single batch size, and with a solver that has been asked some models before. -/
def Run.alone (r : Run α) (size before : Nat) : Run α :=
  { r with
    solver := fun asked => r.solver (before + asked)
    settings := { r.settings with batchSizes := [size] } }

theorem base_alone (r : Run α) (size before : Nat) (p : Floorplan α)
    (prior : Option (NameMap (AreaGroup α))) :
    (r.alone size before).base p prior = r.base p prior := rfl

/-- What the solver was asked before makes a difference to the solver alone. -/
theorem placeBatch_alone (r : Run α) (size : Nat) (p : Floorplan α) (batch : List String)
    (before asked : List (Model α)) : r.placeBatch p batch (before ++ asked) =
      ((r.alone size before.length).placeBatch p batch asked).map id (before ++ ·) := by
  have built : BatchModel.build p batch (r.alone size before.length).traffic
      (r.alone size before.length).settings = BatchModel.build p batch r.traffic r.settings := rfl
  unfold Run.placeBatch
  rw [built, List.length_append]
  cases BatchModel.build p batch r.traffic r.settings with
  | error f => rfl
  | ok built =>
      simp only [Run.alone]
      cases r.solver (before.length + asked.length) built.model <;>
        simp only [Prod.map_apply, id_eq, List.append_assoc]

theorem placeBatches_alone (r : Run α) (size : Nat) (p : Floorplan α) (batches : List (List String))
    (before asked : List (Model α)) : r.placeBatches p batches (before ++ asked) =
      ((r.alone size before.length).placeBatches p batches asked).map id (before ++ ·) := by
  induction batches generalizing p asked with
  | nil => rfl
  | cons batch rest ih =>
      simp only [Run.placeBatches, placeBatch_alone r size]
      rcases (r.alone size before.length).placeBatch p batch asked with ⟨f | q, after⟩
      · rfl
      · exact ih q after

/-- The plan comes from one batch size alone, after the models that were asked in vain. -/
def Run.Settles (r : Run α) (p : Floorplan α) (prior : Option (NameMap (AreaGroup α)))
    (q : Floorplan α) : Prop :=
  ∃ size ∈ r.settings.batchSizes, 0 < size ∧ ∃ before after,
    r.solveAsking p prior = (.ok q, before ++ after) ∧
    (r.alone size before.length).solveAsking p prior = (.ok q, after)

theorem exists_alone {base : Floorplan α} {order : List String} {sizes : List Nat}
    {last : Option (Fault α)} {asked : List (Model α)}
    (placed : (r.tryBatchSizes base order sizes last asked).1 = .ok q) :
    ∃ size ∈ sizes, ∃ before after,
      r.tryBatchSizes base order sizes last asked = (.ok q, before ++ after) ∧
      (r.alone size before.length).placeBatches base (chunks size order) [] = (.ok q, after) := by
  induction sizes generalizing last asked with
  | nil => cases placed
  | cons size rest ih =>
      have run := placeBatches_alone r size base (chunks size order) asked []
      rw [List.append_nil] at run
      rw [Run.tryBatchSizes, run] at placed ⊢
      rcases h : (r.alone size asked.length).placeBatches base (chunks size order) []
        with ⟨f | q', after⟩
      · rw [h] at placed
        obtain ⟨size', mem, rest⟩ := ih placed
        exact ⟨size', List.mem_cons_of_mem _ mem, rest⟩
      · rw [h] at placed
        cases placed
        exact ⟨size, List.mem_cons_self, asked, after, rfl, h⟩

theorem settles_of_solve (solved : r.solve p prior = .ok q) :
    q = r.base p prior ∨ r.Settles p prior q := by
  unfold Run.solve at solved
  by_cases done : (solveOrder (r.base p prior)).isEmpty = true
  · left
    rw [Run.solveAsking, if_pos done] at solved
    exact (Except.ok.inj solved).symm
  · right
    have asking :
        r.solveAsking p prior = r.tryBatchSizes (r.base p prior) (solveOrder (r.base p prior))
        (r.settings.batchSizes.filter (0 < ·)) none [] := if_neg done
    rw [asking] at solved
    obtain ⟨size, mem, before, after, run, alone⟩ := exists_alone solved
    obtain ⟨mem, positive⟩ := List.mem_filter.mp mem
    refine ⟨size, mem, of_decide_eq_true positive, before, after, asking.trans run, ?_⟩
    have single : (r.alone size before.length).settings.batchSizes.filter (0 < ·) = [size] :=
      List.filter_cons_of_pos positive
    rw [Run.solveAsking, base_alone, if_neg done, single, Run.tryBatchSizes, alone]

/-! ### Sizes taken over -/

/-- The group as it was, or a free one with the size that the earlier run gave the group of its
name. -/
inductive Run.TakesOver (r : Run α) (prior : Option (NameMap (AreaGroup α))) (name : String)
    (g : AreaGroup α) : AreaGroup α → Prop where
  | kept : TakesOver r prior name g g
  | resized {groups : NameMap (AreaGroup α)} {old : AreaGroup α} {s : Size α}
      (given : prior = some groups) (found : groups.find? name = some old)
      (size : old.dimension = .fixed s)
      (near : Scalar.abs (g.area - old.area) ≤ r.settings.areaReuseTolerance * old.area)
      (free : g.isPlaced = false) : TakesOver r prior name g { g with dimension := .fixed s }

theorem priorSize?_eq_some {groups : NameMap (AreaGroup α)} {tolerance : α} {g : AreaGroup α}
    {s : Size α} (taken : priorSize? groups tolerance g = some s) :
    g.isPlaced = false ∧ ∃ old, groups.find? g.name = some old ∧ old.dimension = .fixed s ∧
      Scalar.abs (g.area - old.area) ≤ tolerance * old.area := by
  unfold priorSize? at taken
  split at taken
  · cases taken
  · next sizeable =>
    simp only [Bool.or_eq_true, not_or, Bool.not_eq_true] at sizeable
    obtain ⟨old, found, taken⟩ := Option.bind_eq_some_iff.mp taken
    obtain ⟨size, fixed, taken⟩ := Option.bind_eq_some_iff.mp taken
    split at taken
    · next near =>
      cases taken
      exact ⟨sizeable.1, old, found, Dimension.fixed?_eq_some.mp fixed, near⟩
    · cases taken

/-- The plan that the rules start from. -/
theorem exists_seeded (keyed : p.Keyed) (r : Run α) (prior : Option (NameMap (AreaGroup α))) :
    ∃ seeded : Floorplan α, seeded.Keyed ∧ seeded.chip = p.chip ∧
      r.base p prior = (applyRules seeded r.settings.rules).2 ∧
      seeded.groups.keys = p.groups.keys ∧
      ∀ name g, p.groups.find? name = some g →
        ∃ g', seeded.groups.find? name = some g' ∧ r.TakesOver prior name g g' := by
  cases prior with
  | none => exact ⟨p, keyed, rfl, rfl, rfl, fun name g found => ⟨g, found, .kept⟩⟩
  | some groups =>
      refine ⟨_, keyed.seedFromPrior groups r.settings.areaReuseTolerance, rfl, rfl, ?_, ?_⟩
      · simp only [seedFromPrior, NameMap.keys, NameMap.mapValues, List.map_map]
        rfl
      · intro name g found
        simp only [seedFromPrior, NameMap.find?_mapValues, found, Option.map_some]
        split
        · next s taken =>
          obtain ⟨free, old, earlier, size, near⟩ := priorSize?_eq_some taken
          rw [AreaGroup.Keyed.name_eq keyed found] at earlier
          exact ⟨_, rfl, .resized rfl earlier size near free⟩
        · exact ⟨g, rfl, .kept⟩

/-! ### Finished plans -/

/-- Where the size comes from that a run gives a group: the group offers it, an earlier run gave it
to the group of this name, whose area was about the same, or a rule computed it for this place. -/
inductive Run.Offers (r : Run α) (prior : Option (NameMap (AreaGroup α))) (q : Floorplan α)
    (name : String) (g : AreaGroup α) (x y : α) (s : Size α) : Prop where
  | own (offered : s ∈ g.dimension.choices)
  | earlier {groups : NameMap (AreaGroup α)} {old : AreaGroup α} (given : prior = some groups)
      (found : groups.find? name = some old) (size : old.dimension = .fixed s)
      (near : Scalar.abs (g.area - old.area) ≤ r.settings.areaReuseTolerance * old.area)
  | ruled (follows : Follows r.settings.rules q name g (g.place x y s))

/-- What a run leaves of the plan that it was started with. -/
structure Run.Finishes (r : Run α) (p : Floorplan α) (prior : Option (NameMap (AreaGroup α)))
    (q : Floorplan α) : Prop where
  chip : q.chip = p.chip
  keys : q.groups.keys = p.groups.keys
  placed : ∀ g ∈ q.groups.values, g.isPlaced = true
  kept : p.KeepsPlaced q
  /-- Of any other group at most the place and the size are new. -/
  others : ∀ name g, p.groups.find? name = some g → g.isPlaced = false →
    ∃ x y s, q.groups.find? name = some (g.place x y s) ∧ r.Offers prior q name g x y s
  /-- No batch size has been tried, or all but one have left nothing behind. -/
  alone : q = r.base p prior ∨ r.Settles p prior q

theorem Completes.keepsPlaced (completes : p.Completes q) : p.KeepsPlaced q :=
  fun _ _ => completes.find?_of_placed

theorem Run.TakesOver.eq_of_placed {name : String} {g g' : AreaGroup α}
    (taken : r.TakesOver prior name g g') (placed : g.isPlaced = true) : g' = g := by
  cases taken with
  | kept => rfl
  | resized given found size near free => exact Bool.noConfusion (free.symm.trans placed)

/-- A group that no rule takes is placed with a size taken over or one of its own. -/
theorem offers_of_chosen {name : String} {g g' h : AreaGroup α}
    (taken : r.TakesOver prior name g g')
    (chosen : g'.Chosen h) (free : g.isPlaced = false) (placed : h.isPlaced = true) :
    ∃ x y s, h = g.place x y s ∧ r.Offers prior q name g x y s := by
  cases taken with
  | kept =>
      cases chosen with
      | kept => exact Bool.noConfusion (free.symm.trans placed)
      | put x y _ offered => exact ⟨x, y, _, rfl, .own offered⟩
  | @resized groups old s given found size near =>
      cases chosen with
      | kept =>
          -- the group had a centre, so that the size alone has placed it
          simp only [isPlaced, Bool.and_eq_true, Option.isSome_iff_exists] at placed
          obtain ⟨⟨⟨x, hx⟩, y, hy⟩, -⟩ := placed
          refine ⟨x, y, s, ?_, .earlier given found size near⟩
          change _ = { g with x := some x, y := some y, dimension := .fixed s }
          rw [← hx, ← hy]
      | put x y _ offered =>
          obtain rfl := List.mem_singleton.mp offered
          exact ⟨x, y, _, rfl, .earlier given found size near⟩

/-- **What a run may touch.** Whatever the solver answers and however many batch sizes are given up,
a plan that is handed out has the groups of the given plan, all of them placed; those that were
placed are as they were, and any other differs at most in its place and its size, which is one of
its own, that of an earlier run for about the same area, or one that a rule computed. -/
theorem Run.solve_finishes (r : Run α) (p q : Floorplan α) (prior : Option (NameMap (AreaGroup α)))
    (keyed : p.Keyed) (solved : r.solve p prior = .ok q) : r.Finishes p prior q := by
  obtain ⟨seeded, keyedSeeded, chip, base, keys, takes⟩ := exists_seeded keyed r prior
  have followed := keyedSeeded.applyRules_followed r.settings.rules
  have completes := keyed.solve_completes solved
  have placed := isPlaced_of_solve solved
  rw [base] at completes
  constructor
  case chip => exact completes.chip.trans (followed.chip.trans chip)
  case keys => exact completes.groups.keys_eq.trans (followed.keys_eq.trans keys)
  case placed => exact placed
  case kept =>
    intro name g found placed
    obtain ⟨g', there, taken⟩ := takes name g found
    obtain rfl := taken.eq_of_placed placed
    exact completes.keepsPlaced name g' (followed.keepsPlaced name g' there placed) placed
  case others =>
    intro name g found free
    obtain ⟨g', there, taken⟩ := takes name g found
    by_cases named : name ∈ (applyRules seeded r.settings.rules).1
    · obtain ⟨k, h, here, after, follows⟩ := followed.follows name named
      cases here.symm.trans there
      have last := completes.keepsPlaced name h after follows.isPlaced
      have kept := follows.keeps completes.keepsPlaced
      obtain ⟨rule, mem, group, anchor, b, anchored, seen, rfl⟩ := kept
      have same : g'.against b rule.side = g.against b rule.side := by
        cases taken <;> rfl
      rw [same] at last
      exact ⟨_, _, _, last, .ruled ⟨rule, mem, group, anchor, b, anchored, seen, rfl⟩⟩
    · have between := (followed.ruled.kept name named).trans there
      obtain ⟨h, last, chosen⟩ := completes.groups.image between
      obtain ⟨x, y, s, rfl, offers⟩ := offers_of_chosen (q := q) taken chosen free
        (placed h (NameMap.mem_values_iff.mpr ⟨_, last⟩))
      exact ⟨x, y, s, last, offers⟩
  case alone => exact settles_of_solve solved

/-! ### A batch size given up -/

/-- A placed group, one that a rule puts beside it, one that an earlier run gave another size, and
one that only has its own. -/
def retriedPlan : Floorplan Rat :=
  { chip := ⟨100, 100⟩
    groups := .ofList
      [("cache", { name := "cache", area := 100, dimension := .options [⟨10, 10⟩] }),
       ("core", { name := "core", area := 400, dimension := .options [⟨20, 20⟩] }),
       ("port", { name := "port", area := 100 }),
       ("wall",
        { name := "wall", area := 400, x := some 10, y := some 10,
          dimension := .fixed ⟨20, 20⟩ })] }

def retriedPrior : NameMap (AreaGroup Rat) := .ofList
  [("core",
    { name := "core", area := 400, x := some 50, y := some 50,
      dimension := .fixed ⟨40, 10⟩ })]

/-- Batches of one group each are given up after the first one; then both groups are placed at
once. -/
def retriedRun : Run Rat :=
  { replaying [#[1, 70, 50, 1, 0, 1, 0], #[],
    #[1, 70, 70, 1, 20, 70, 1, 0, 1, 0, 1, 0, 1, 1, 1, 1]] with
    settings := { aspectRatios := [1], batchSizes := [1, 2], rules := [⟨"port", "wall", .right⟩] } }

def retriedPlaced : Floorplan Rat :=
  { chip := ⟨100, 100⟩
    groups := .ofList
      [("cache",
        { name := "cache", area := 100, x := some 20, y := some 70,
          dimension := .fixed ⟨10, 10⟩ }),
       ("core",
        { name := "core", area := 400, x := some 70, y := some 70,
          dimension := .fixed ⟨40, 10⟩ }),
       ("port",
        { name := "port", area := 100, x := some (45 / 2), y := some 10,
          dimension := .fixed ⟨5, 20⟩ }),
       ("wall",
        { name := "wall", area := 400, x := some 10, y := some 10,
          dimension := .fixed ⟨20, 20⟩ })] }

/-- The place that the first batch size gave the core does not come back. -/
theorem Run.solve_finishes_retried : retriedPlan.Keyed ∧
    retriedRun.solve retriedPlan (some retriedPrior) = .ok retriedPlaced ∧
    retriedRun.Finishes retriedPlan (some retriedPrior) retriedPlaced := by
  have keyed : retriedPlan.Keyed := by decide +kernel
  have solved : retriedRun.solve retriedPlan (some retriedPrior) = .ok retriedPlaced := by
    have base : (retriedRun.base retriedPlan (some retriedPrior)).groups.values.filter
        (!·.isPlaced) = [{ name := "cache", area := 100, dimension := .options [⟨10, 10⟩] },
          { name := "core", area := 400, dimension := .fixed ⟨40, 10⟩ }] := by decide +kernel
    have order := solveOrder_of_swapped base (by decide +kernel)
    have single : chunks 1 ["core", "cache"] = [["core"], ["cache"]] := by simp [chunks]
    have both : chunks 2 ["core", "cache"] = [["core", "cache"]] := by simp [chunks]
    have failed : (retriedRun.placeBatches (retriedRun.base retriedPlan (some retriedPrior))
        (chunks 1 ["core", "cache"]) []).1.isOk = false := by
      rw [single]
      decide +kernel
    obtain ⟨f, retried⟩ := tryBatchSizes_of_failed [2] none failed
    rw [solve_of_order order (by simp), show
      retriedRun.settings.batchSizes.filter (0 < ·) = [1, 2] by decide, retried]
    apply tryBatchSizes_of_placed
    rw [single, both, ← toOption_eq_some]
    decide +kernel
  exact ⟨keyed, solved, Run.solve_finishes retriedRun retriedPlan retriedPlaced _ keyed solved⟩

end HardwareLinker.Floorplan
