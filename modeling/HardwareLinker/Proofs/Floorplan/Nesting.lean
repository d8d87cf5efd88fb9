import HardwareLinker.Proofs.Floorplan.Batches
import HardwareLinker.Proofs.Floorplan.Rules

/-!
Children inside their parents. Where the solver has placed one of the two, whichever of them comes
first, the child lies inside its parent but for a millionth. Groups that the file or a rule has
placed are handed out as they are; a rule looks for free area only, and puts a child outside its
parent.
-/

namespace HardwareLinker.Floorplan

/-- The plan has a place for the group of this name. -/
def hasPlaced {α : Type} [Scalar α] (p : Floorplan α) (name : String) : Bool :=
  (p.groups.find? name).any AreaGroup.isPlaced

theorem Keyed.seedFromPrior {α : Type} [Scalar α] {p : Floorplan α} (keyed : p.Keyed)
    (prior : NameMap (AreaGroup α)) (tolerance : α) :
    (Floorplan.seedFromPrior p prior tolerance).2.Keyed :=
  AreaGroup.Keyed.mapValues keyed fun _ g => by split <;> rfl

theorem Keyed.base {α : Type} [Scalar α] {p : Floorplan α} (keyed : p.Keyed) (r : Run α)
    (prior : Option (NameMap (AreaGroup α))) : (r.base p prior).Keyed := by
  cases prior with
  | none => exact (applyRules_ruled keyed r.settings.rules).keyed
  | some prior =>
      have seeded := keyed.seedFromPrior prior r.settings.areaReuseTolerance
      exact (applyRules_ruled seeded r.settings.rules).keyed

/-- A plan that is handed out has a place for every group. -/
theorem isPlaced_of_solve {α : Type} [Scalar α] {r : Run α} {p q : Floorplan α}
    {prior : Option (NameMap (AreaGroup α))} (solved : r.solve p prior = .ok q) :
    ∀ g ∈ q.groups.values, g.isPlaced = true := by
  by_cases free : ∃ g ∈ (r.base p prior).groups.values, g.isPlaced = false
  · exact (verify_eq_ok.mp (solve_of_free solved free)).placed
  · have all : ∀ g ∈ (r.base p prior).groups.values, g.isPlaced = true := by
      simpa using free
    rw [solve_of_placed all] at solved
    cases solved
    exact all

/-- **Nesting is kept by the solver.** With a solver that answers only what the model admits, a plan
that is handed out leaves the groups that were placed before the batches as they were. Of any other
child and parent, unless each names the other or both are empty boxes, the child lies inside the
parent but for a millionth. -/
theorem Run.solve_keeps_nesting (r : Run Rat) (p q : Floorplan Rat)
    (prior : Option (NameMap (AreaGroup Rat))) (exact : r.Exact) (keyed : p.Keyed)
    (solved : r.solve p prior = .ok q) :
    (∀ name g, (r.base p prior).groups.find? name = some g → g.isPlaced = true →
      q.groups.find? name = some g) ∧
    ∀ child parent c d, q.groups.find? child = some c → q.groups.find? parent = some d →
      c.parent = some parent → d.parent ≠ some child →
      ¬ (c.isEmptyBox = true ∧ d.isEmptyBox = true) →
      ¬ ((r.base p prior).hasPlaced child = true ∧ (r.base p prior).hasPlaced parent = true) →
      ∃ inner outer, c.bounds? = some inner ∧ d.bounds? = some outer ∧
        inner.NearlyWithin outer := by
  have keyedBase := keyed.base r prior
  have complete := isPlaced_of_solve solved
  obtain ⟨picks, settled, rfl⟩ := solve_settled exact keyedBase solved
  constructor
  · intro name g found placed
    have mem := NameMap.find?_eq_some.mp found
    exact NameMap.find?_eq_some.mpr (mem_withPicks_of_not_picked mem
      (settled.not_picked mem placed))
  · intro child parent c d hc hd inside top boxes notBoth
    rw [NameMap.find?_eq_some] at hc hd
    have placedC := complete c (NameMap.mem_values.mpr ⟨_, hc⟩)
    have placedD := complete d (NameMap.mem_values.mpr ⟨_, hd⟩)
    have different : child ≠ parent := by
      rintro rfl
      obtain rfl := NameMap.value_unique _ hc hd
      exact top inside
    obtain ⟨inner, hinner⟩ := AreaGroup.isPlaced_iff.mp placedC
    obtain ⟨outer, houter⟩ := AreaGroup.isPlaced_iff.mp placedD
    rcases settled.agree_of_mem hc hd different placedC placedD with agree | ⟨hc', hd'⟩
    · have keyedQ : ((r.base p prior).withPicks picks).Keyed := keyedBase.withPicks
      rw [← show d.name = parent from keyedQ _ hd] at inside
      rw [← show c.name = child from keyedQ _ hc] at top
      exact ⟨inner, outer, hinner, houter, agree.inside inside top boxes inner hinner outer houter⟩
    · rw [← NameMap.find?_eq_some] at hc' hd'
      refine absurd ⟨?_, ?_⟩ notBoth
      · rw [hasPlaced, hc', Option.any_some, placedC]
      · rw [hasPlaced, hd', Option.any_some, placedD]

/-- The solver places the child of a group that was placed before. -/
theorem Run.solve_keeps_nesting_inner :
    (vetting nestedAnswers).Exact ∧ nestedPlan.Keyed ∧
    (vetting nestedAnswers).solve nestedPlan none = .ok nestedPlaced ∧
    ∃ c d inner outer, nestedPlaced.groups.find? "inner" = some c ∧
      nestedPlaced.groups.find? "core" = some d ∧ c.parent = some "core" ∧
      c.bounds? = some inner ∧ d.bounds? = some outer ∧ inner.NearlyWithin outer := by
  have keyed : nestedPlan.Keyed := by decide +kernel
  have solved : (vetting nestedAnswers).solve nestedPlan none = .ok nestedPlaced :=
    solve_of_placeBatches nestedPlan_order (by decide) rfl nestedPlan_placed
  let c := innerGroup.place 60 (40333333 / 1000000) ⟨20, 5⟩
  let d : AreaGroup Rat :=
    { name := "core", area := 1600, x := some 50, y := some 50, dimension := .fixed ⟨40, 40⟩ }
  have hc : nestedPlaced.groups.find? "inner" = some c := by decide +kernel
  have hd : nestedPlaced.groups.find? "core" = some d := by decide +kernel
  obtain ⟨-, nested⟩ :=
    solve_keeps_nesting _ nestedPlan _ none (vetting_exact nestedAnswers) keyed solved
  obtain ⟨inner, outer, hinner, houter, within⟩ :=
    nested "inner" "core" c d hc hd rfl (by decide) (by decide +kernel) (by decide +kernel)
  exact ⟨vetting_exact _, keyed, solved, c, d, inner, outer, hc, hd, rfl, hinner, houter, within⟩

def userGroup : AreaGroup Rat :=
  { name := "user", area := 1000, dimension := .options [⟨32, 32⟩], parent := some "top" }

def topGroup : AreaGroup Rat :=
  { name := "top", area := 1600, x := some 20, y := some 20, dimension := .fixed ⟨40, 40⟩
    children := ["user"] }

/-- A group that has room in its parent, and a placed group at the other end of the chip. -/
def familyPlan : Floorplan Rat :=
  { chip := ⟨100, 100⟩
    groups := .ofList
      [("dram", { name := "dram", area := 2000, x := some 90, y := some 50
                  dimension := .fixed ⟨20, 100⟩ }),
       ("top", topGroup), ("user", userGroup)] }

/-- A rule puts the child beside the placed group. -/
def besideAnchorRun : Run Rat :=
  { vetting [] with settings := { rules := [⟨"user", "dram", .left⟩] } }

/-- A rule looks for free area only: the child ends up outside its parent. -/
theorem ruled_outside_parent : besideAnchorRun.Exact ∧ familyPlan.Keyed ∧
    familyPlan.hasPlaced "user" = false ∧ ∃ q c inner outer,
      besideAnchorRun.solve familyPlan none = .ok q ∧
      q.groups.find? "user" = some c ∧ q.groups.find? "top" = some topGroup ∧
      c.parent = some "top" ∧ ¬ (c.isEmptyBox = true ∧ topGroup.isEmptyBox = true) ∧
      c.bounds? = some inner ∧ topGroup.bounds? = some outer ∧
      outer.right + 2 / 1000000 < inner.left := by
  let placed := userGroup.place 75 50 ⟨10, 100⟩
  have solved :
      besideAnchorRun.solve familyPlan none = .ok (besideAnchorRun.base familyPlan none) :=
    solve_of_placed (by decide +kernel)
  refine ⟨vetting_exact [], by decide +kernel, by decide +kernel, _, placed, _, _, solved,
    by decide +kernel, by decide +kernel, rfl, by decide +kernel,
    AreaGroup.bounds?_place .., AreaGroup.bounds?_place topGroup 20 20 ⟨40, 40⟩, ?_⟩
  norm_num [userGroup]

end HardwareLinker.Floorplan
