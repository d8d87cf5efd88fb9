import HardwareLinker.Proofs.Floorplan.Answer

/-!
The objective of the model of a batch. Its distance variables may be greater than the distances they
stand for, so an assignment costs no less than the weighted distances of the arrangement that it
encodes; and every arrangement that the model admits has an assignment that costs exactly these.
-/

namespace HardwareLinker.Floorplan

open Milp

variable {a : Assignment Rat} {p : Floorplan Rat} {picks : List Pick} {batch : List String}
  {traffic : TrafficTable Rat} {settings : PlacementSettings Rat}

/-! ### Picks are told by the assignment -/

/-- Two picks of one group that an assignment encodes are the same. -/
theorem Geometry.Takes.unique {geo : Geometry Rat} {c c' : Pick} (takes : geo.Takes a c)
    (takes' : geo.Takes a c') (same : c.group = c'.group) (suits : c'.Suits) : c = c' := by
  obtain ⟨choice, hchoice, -, x, y, selected⟩ := takes
  obtain ⟨choice', hchoice', sizes, x', y', selected'⟩ := takes'
  obtain rfl : choice = choice' := Option.some.inj (hchoice.symm.trans hchoice')
  -- the selector of the second candidate is one, and so that candidate is the first one
  have candidate : c'.candidate < choice.sizes.length := by
    rw [← List.length_map Prod.snd, sizes]
    exact suits.candidate
  have one := (selected _ _ _ (List.getElem?_eq_getElem candidate)).symm.trans
    (selected' _ _ _ (List.getElem?_eq_getElem candidate))
  have index : c'.candidate = c.candidate := by
    by_contra other
    rw [if_neg other, if_pos rfl] at one
    exact absurd one (by norm_num)
  obtain ⟨group, k, cx, cy⟩ := c
  obtain ⟨group', k', cx', cy'⟩ := c'
  obtain rfl : group = group' := same
  obtain rfl : k' = k := index
  obtain rfl : cx = cx' := x.symm.trans x'
  obtain rfl : cy = cy' := y.symm.trans y'
  rfl

theorem picks_unique {geos : List (Geometry Rat)} {picks' : List Pick}
    (found : List.Forall₂ (fun name c => p.groups.find? name = some c.group) batch picks)
    (found' : List.Forall₂ (fun name c => p.groups.find? name = some c.group) batch picks')
    (takes : List.Forall₂ (fun geo c => geo.Takes a c) geos picks)
    (takes' : List.Forall₂ (fun geo c => geo.Takes a c) geos picks')
    (suits : ∀ c ∈ picks', c.Suits) : picks = picks' := by
  induction found generalizing geos picks' with
  | nil =>
      cases found'
      rfl
  | cons head _ ih =>
      cases found' with
      | cons head' tail' =>
          cases takes with
          | cons takesHead takesTail =>
              cases takes' with
              | cons takesHead' takesTail' =>
                  obtain ⟨suitsHead, suitsTail⟩ := List.forall_mem_cons.mp suits
                  have group := Option.some.inj (head.symm.trans head')
                  rw [takesHead.unique takesHead' group suitsHead,
                    ih tail' takesTail takesTail' suitsTail]

/-! ### The cost of an assignment -/

section
variable {free : BatchModel Rat} {geos : List (Geometry Rat)} {far : Rat}

/-- The groups of a batch alone cost nothing. -/
theorem objective_foldlM_addFree
    (run : batch.foldlM (BatchModel.addFree p) ⟨.empty, []⟩ = .ok free) :
    free.model.objective = [] := by
  refine foldlM_invariant (P := fun b : BatchModel Rat => b.model.objective = []) ?_ rfl run
  intro b name b' nothing step
  obtain ⟨g, -, -, rfl⟩ := addFree_eq_ok step
  exact (List.append_nil _).trans nothing

/-- An assignment costs no less than the wire length of what it encodes. -/
theorem Added.wireLength_le (added : Added p.chip picks ⟨.empty, []⟩ free geos)
    (lists : a.Lists 0 (picks.flatMap Pick.values))
    (feasible : (addParts (pairPart far traffic settings) free.model
      (orderedPairs (geos ++ BatchModel.surroundings p batch).zipIdx)).Feasible a) :
    free.model.objective.eval a + wireLength p batch traffic settings picks ≤
      (addParts (pairPart far traffic settings) free.model
        (orderedPairs (geos ++ BatchModel.surroundings p batch).zipIdx)).objective.eval a := by
  rw [← added.sum_geometryCost]
  refine sum_le_of_addParts feasible ?_
  rintro ⟨⟨geo, i⟩, geo', j⟩ hpair first holds
  obtain ⟨-, hgeo, hgeo'⟩ := mem_orderedPairs_zipIdx.mp hpair
  obtain ⟨g, hg, shown⟩ := added.exists_shown hgeo
  obtain ⟨h, hh, shown'⟩ := added.exists_shown hgeo'
  have related := added.related_iff hgeo hgeo' (shown a lists) (shown' a lists)
  simp only [geometryCost, hg, hh]
  unfold pairCost
  split
  case isTrue apart =>
    rw [pairPart, relate_of_not_related fun meet => related.mp meet apart, Terms.eval_nil]
  case isFalse meet =>
    exact le_relate_objective (shown a lists) (shown' a lists) (related.mpr meet) holds

end

/-- **The objective is the wire length.** Around placed groups that lie on the chip, let the model
of a batch admit a choice of a size and a centre for each group of it. Then the least objective
among the feasible assignments that encode the choice is the sum, over all pairs of modelled groups,
of their weighted distances. -/
theorem BatchModel.least_objective (p : Floorplan Rat) (batch : List String)
    (traffic : TrafficTable Rat) (settings : PlacementSettings Rat) (picks : List Pick)
    (built : BatchModel Rat)
    (around : ∀ g ∈ p.groups.values, g.name ∉ batch → ∀ r ∈ g.bounds?,
      r.Proper ∧ r.Within (chipBounds p.chip))
    (found : List.Forall₂ (fun name c => p.groups.find? name = some c.group) batch picks)
    (run : build p batch traffic settings = .ok built)
    (admits : ∃ a, built.model.Feasible a ∧ built.Encodes a picks) :
    IsLeast {cost | ∃ a, built.model.Feasible a ∧ built.Encodes a picks ∧
      built.model.objectiveValue a = cost} (wireLength p batch traffic settings picks) := by
  obtain ⟨free, groups, -⟩ := bind_eq_ok run
  obtain rfl := Except.ok.inj ((build_eq groups).symm.trans run)
  obtain ⟨a, feasible, encodes⟩ := admits
  obtain ⟨picks', found', suits, lists⟩ := exists_picks groups (holdsAt_of_addParts feasible).1
  obtain ⟨_, geos, groups', added⟩ := added_foldlM (b := ⟨.empty, []⟩) found' suits
  obtain rfl := Except.ok.inj (groups.symm.trans groups')
  have geometries : free.geometries = geos := added.geometries
  rw [geometries] at feasible encodes ⊢
  obtain rfl : picks = picks' := by
    rw [Encodes, added.filter_choice] at encodes
    exact picks_unique found found' encodes ((added.takes a).mpr lists) suits
  have free_cost (a : Assignment Rat) : free.model.objective.eval a = 0 := by
    rw [objective_foldlM_addFree groups, Terms.eval_nil]
  have arranged := added.arranged_of_feasible lists feasible
  have positive : ∀ c ∈ picks, 0 < p.chip.width ∧ 0 < p.chip.height := by
    intro c hc
    obtain ⟨r, hr, wide, high⟩ := (suits c hc).proper
    obtain ⟨left, right, bottom, top⟩ := arranged.onChip _ (List.mem_map_of_mem hc) r hr
    exact ⟨left.trans_lt (wide.trans_le right), bottom.trans_lt (high.trans_le top)⟩
  constructor
  · obtain ⟨a, feasible, lists, objective⟩ := added.attained_of_arranged traffic settings
      positive (onChip_modelled suits arranged around) arranged
    rw [free_cost, zero_add] at objective
    exact ⟨a, feasible, added.encodes_iff.mpr lists, objective⟩
  · rintro cost ⟨a, feasible, encodes, rfl⟩
    have least := added.wireLength_le (added.encodes_iff.mp encodes) feasible
    rwa [free_cost, zero_add] at least

/-- The group outside talks to both others, more to the child. -/
def nestedTraffic : TrafficTable Rat :=
  (TrafficTable.empty.add "inner" "outer" 3).add "outer" "core" 2

/-- The child costs a hundred for each unit that its centre is off that of its parent. -/
theorem BatchModel.least_objective_nested :
    (∀ g ∈ nestedPlan.groups.values, g.name ∉ ["inner", "outer"] → ∀ r ∈ g.bounds?,
      r.Proper ∧ r.Within (chipBounds nestedPlan.chip)) ∧
    ∃ built, build nestedPlan ["inner", "outer"] nestedTraffic {} = .ok built ∧
      (∃ a, built.model.Feasible a ∧ built.Encodes a (nestedPicks 60 40)) ∧
      IsLeast {cost | ∃ a, built.model.Feasible a ∧ built.Encodes a (nestedPicks 60 40) ∧
        built.model.objectiveValue a = cost} (100 * (10 + 10) + 3 * (50 + 10) + 2 * (40 + 20)) := by
  have around : ∀ g ∈ nestedPlan.groups.values, g.name ∉ ["inner", "outer"] → ∀ r ∈ g.bounds?,
      r.Proper ∧ r.Within (chipBounds nestedPlan.chip) := by decide +kernel
  have found : List.Forall₂ (fun name c => nestedPlan.groups.find? name = some c.group)
      ["inner", "outer"] (nestedPicks 60 40) := by
    have inner : nestedPlan.groups.find? "inner" = some innerGroup := by decide +kernel
    have outer : nestedPlan.groups.find? "outer" = some outerGroup := by decide +kernel
    exact .cons inner (.cons outer .nil)
  have suits : ∀ c ∈ nestedPicks 60 40, c.Suits := by decide +kernel
  have arranged : Arranged nestedPlan ["inner", "outer"] (nestedPicks 60 40) := by decide +kernel
  obtain ⟨free, geos, groups, added⟩ := added_foldlM (b := ⟨.empty, []⟩) found suits
  have geometries : free.geometries = geos := added.geometries
  have run : build nestedPlan ["inner", "outer"] nestedTraffic {} = .ok _ := build_eq groups
  have positive : 0 < nestedPlan.chip.width ∧ 0 < nestedPlan.chip.height := by decide +kernel
  obtain ⟨a, feasible, lists, -⟩ :=
    added.attained_of_arranged nestedTraffic {} (fun _ _ => positive)
    (onChip_modelled suits arranged around) arranged
  rw [geometries] at run
  have cost : wireLength nestedPlan ["inner", "outer"] nestedTraffic {} (nestedPicks 60 40) =
      100 * (10 + 10) + 3 * (50 + 10) + 2 * (40 + 20) := by decide +kernel
  refine ⟨around, _, run, ⟨a, feasible, added.encodes_iff.mpr lists⟩, ?_⟩
  rw [← cost]
  exact least_objective _ _ _ _ _ _ around found run ⟨a, feasible, added.encodes_iff.mpr lists⟩

end HardwareLinker.Floorplan
