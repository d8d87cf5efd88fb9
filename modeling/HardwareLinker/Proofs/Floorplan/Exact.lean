import HardwareLinker.Proofs.Floorplan.Batch

/-!
The model of a batch is exact. Its feasible assignments that encode a size and a centre for every
group of the batch are there precisely if these rectangles, with the groups that are already placed,
make a valid arrangement: no row cuts off a valid one, and none lets an invalid one through.
-/

namespace HardwareLinker.Floorplan

open Milp

variable {a : Assignment Rat} {p : Floorplan Rat} {picks : List Pick} {batch : List String}

/-- The picks make a valid arrangement: every group of the batch lies on the chip, and fits with
every modelled group unless both are empty boxes. -/
structure Arranged (p : Floorplan Rat) (batch : List String) (picks : List Pick) : Prop where
  onChip : ∀ g ∈ picks.map Pick.placed, ∀ r ∈ g.bounds?, r.Within (chipBounds p.chip)
  fits : ∀ i j g h, i < j → i < picks.length → (modelled p batch picks)[i]? = some g →
    (modelled p batch picks)[j]? = some h → ¬ (g.isEmptyBox = true ∧ h.isEmptyBox = true) → g.Fits h

theorem arranged_iff {batch : List String} : Arranged p batch picks ↔
    (∀ g ∈ picks.map Pick.placed, ∀ r ∈ g.bounds?, r.Within (chipBounds p.chip)) ∧
    ∀ pair ∈ orderedPairs (modelled p batch picks).zipIdx, pair.1.2 < picks.length →
      ¬ (pair.1.1.isEmptyBox = true ∧ pair.2.1.isEmptyBox = true) → pair.1.1.Fits pair.2.1 := by
  constructor
  · rintro ⟨onChip, fits⟩
    refine ⟨onChip, fun ⟨⟨g, i⟩, h, j⟩ hpair hi => ?_⟩
    obtain ⟨hij, hg, hh⟩ := mem_orderedPairs_zipIdx.mp hpair
    exact fits i j g h hij hi hg hh
  · rintro ⟨onChip, fits⟩
    exact ⟨onChip, fun i j g h hij hi hg hh =>
      fits ((g, i), (h, j)) (mem_orderedPairs_zipIdx.mpr ⟨hij, hg, hh⟩) hi⟩

instance (batch : List String) : Decidable (Arranged p batch picks) :=
  decidable_of_iff _ arranged_iff.symm

/-- The assignment selects for each group of the batch the candidate of its pick and no other one,
and has its centre. -/
def BatchModel.Encodes (b : BatchModel Rat) (a : Assignment Rat) (picks : List Pick) : Prop :=
  List.Forall₂ (fun geo c => geo.Takes a c) (b.geometries.filter (·.choice.isSome)) picks

section
variable {free : BatchModel Rat} {geos : List (Geometry Rat)}

/-- The free groups of the model are those of the batch. -/
theorem Added.filter_choice (added : Added p.chip picks ⟨.empty, []⟩ free geos) :
    (geos ++ BatchModel.surroundings p batch).filter (·.choice.isSome) = geos := by
  have none : (BatchModel.surroundings p batch).filter (·.choice.isSome) = [] :=
    List.filter_eq_nil_iff.mpr fun geo h => by simp [mem_surroundings h]
  rw [List.filter_append, none, List.append_nil, List.filter_eq_self]
  exact added.free

theorem Added.encodes_iff (added : Added p.chip picks ⟨.empty, []⟩ free geos) {m : Model Rat} :
    BatchModel.Encodes ⟨m, geos ++ BatchModel.surroundings p batch⟩ a picks ↔
      a.Lists 0 (picks.flatMap Pick.values) := by
  rw [BatchModel.Encodes, added.filter_choice]
  exact added.takes a

variable {traffic : TrafficTable Rat} {settings : PlacementSettings Rat} {far : Rat}

/-- What a feasible assignment encodes is a valid arrangement. -/
theorem Added.arranged_of_feasible (added : Added p.chip picks ⟨.empty, []⟩ free geos)
    (lists : a.Lists 0 (picks.flatMap Pick.values))
    (feasible : (addParts (pairPart far traffic settings) free.model
      (orderedPairs (geos ++ BatchModel.surroundings p batch).zipIdx)).Feasible a) :
    Arranged p batch picks := by
  obtain ⟨front, pairs⟩ := holdsAt_of_addParts feasible
  refine ⟨((added.feasible a lists).mp front).2, fun i j g h hij hi hg hh boxes => ?_⟩
  have shown := added.shown_all batch lists
  obtain ⟨geo, hgeo, showsG⟩ := exists_of_getElem? shown.flip hg
  obtain ⟨geo', hgeo', showsH⟩ := exists_of_getElem? shown.flip hh
  obtain ⟨first, holds⟩ :=
    pairs ((geo, i), (geo', j)) (mem_orderedPairs_zipIdx.mpr ⟨hij, hgeo, hgeo'⟩)
  have isFree := (added.choice_isSome hgeo).mpr hi
  refine fits_of_holdsAt showsG showsH ⟨?_, ?_⟩ holds
  · rintro ⟨none, -⟩
    simp [none] at isFree
  · rwa [showsG.emptyBox, showsH.emptyBox]

/-- In a valid arrangement around placed groups that lie on the chip, every modelled group does. -/
theorem onChip_modelled (suits : ∀ c ∈ picks, c.Suits) (arranged : Arranged p batch picks)
    (around : ∀ g ∈ p.groups.values, g.name ∉ batch → ∀ r ∈ g.bounds?,
      r.Proper ∧ r.Within (chipBounds p.chip)) :
    ∀ g ∈ modelled p batch picks, ∀ r ∈ g.bounds?, r.Proper ∧ r.Within (chipBounds p.chip) := by
  intro g hg r hr
  rcases List.mem_append.mp hg with picked | placed
  · obtain ⟨c, hc, rfl⟩ := List.mem_map.mp picked
    obtain ⟨r', hr', proper⟩ := (suits c hc).proper
    obtain rfl : r' = r := Option.some.inj (hr'.symm.trans hr)
    exact ⟨proper, arranged.onChip _ picked _ hr⟩
  · obtain ⟨mem, keep⟩ := List.mem_filter.mp placed
    rw [Bool.and_eq_true, Bool.not_eq_true', List.contains_eq_mem, decide_eq_false_iff_not] at keep
    exact around g mem keep.1 r hr

/-- What the groups at the two positions of a pair of geometries add to the objective. -/
def geometryCost (p : Floorplan Rat) (batch : List String) (traffic : TrafficTable Rat)
    (settings : PlacementSettings Rat) (picks : List Pick)
    (pair : (Geometry Rat × Nat) × (Geometry Rat × Nat)) : Rat :=
  match (modelled p batch picks)[pair.1.2]?, (modelled p batch picks)[pair.2.2]? with
  | some g, some h => pairCost traffic settings picks.length ((g, pair.1.2), (h, pair.2.2))
  | _, _ => 0

/-- Two geometries are related unless both groups were placed before or both are empty boxes. -/
theorem Added.related_iff (added : Added p.chip picks ⟨.empty, []⟩ free geos) {i j : Nat}
    {geo geo' : Geometry Rat} {g h : AreaGroup Rat}
    (hgeo : (geos ++ BatchModel.surroundings p batch)[i]? = some geo)
    (hgeo' : (geos ++ BatchModel.surroundings p batch)[j]? = some geo')
    (showsG : geo.Shows a g) (showsH : geo'.Shows a h) :
    geo.Related geo' ↔ ¬ ((picks.length ≤ i ∧ picks.length ≤ j) ∨
      (g.isEmptyBox = true ∧ h.isEmptyBox = true)) := by
  have placed {k : Nat} {geo : Geometry Rat}
      (hgeo : (geos ++ BatchModel.surroundings p batch)[k]? = some geo) :
      geo.choice = none ↔ picks.length ≤ k := by
    rw [← Option.not_isSome_iff_eq_none, added.choice_isSome hgeo, Nat.not_lt]
  rw [Geometry.Related, placed hgeo, placed hgeo', showsG.emptyBox, showsH.emptyBox, not_or]

/-- In a valid arrangement each pair leaves values for its variables, and they cost no more than the
weighted distance. -/
theorem Added.pair_attains (traffic : TrafficTable Rat) (settings : PlacementSettings Rat)
    (added : Added p.chip picks ⟨.empty, []⟩ free geos)
    (positive : ∀ c ∈ picks, 0 < p.chip.width ∧ 0 < p.chip.height)
    (onChip : ∀ g ∈ modelled p batch picks, ∀ r ∈ g.bounds?, r.Proper ∧
      r.Within (chipBounds p.chip))
    (arranged : Arranged p batch picks) {pair : (Geometry Rat × Nat) × (Geometry Rat × Nat)}
    (hpair : pair ∈ orderedPairs (geos ++ BatchModel.surroundings p batch).zipIdx) (first : Nat) :
    (pairPart (p.chip.width + p.chip.height) traffic settings pair first).Attains first
      (fun a => a.Lists 0 (picks.flatMap Pick.values))
      (geometryCost p batch traffic settings picks pair) := by
  obtain ⟨⟨geo, i⟩, geo', j⟩ := pair
  obtain ⟨hij, hgeo, hgeo'⟩ := mem_orderedPairs_zipIdx.mp hpair
  obtain ⟨g, hg, showsG⟩ := added.exists_shown hgeo
  obtain ⟨h, hh, showsH⟩ := added.exists_shown hgeo'
  have lists := Assignment.lists_toArray (picks.flatMap Pick.values)
  have related := added.related_iff hgeo hgeo' (showsG _ lists) (showsH _ lists)
  simp only [geometryCost, hg, hh]
  unfold pairCost
  split
  case isTrue apart =>
    exact relate_attains_of_not_related fun meet => related.mp meet apart
  case isFalse meet =>
    -- if the first group is a placed one, then so is the second
    have isFree : i < picks.length :=
      Nat.lt_of_not_ge fun placed => meet (.inl ⟨placed, placed.trans hij.le⟩)
    have fits : g.Fits h := arranged.fits i j g h hij isFree hg hh fun boxes => meet (.inr boxes)
    exact relate_attains ⟨_, lists⟩ (fun a ha => ⟨showsG a ha, showsH a ha⟩) (related.mpr meet) fits
      (showsG _ lists).bounds (showsH _ lists).bounds
      (onChip g (List.mem_of_getElem? hg) _ (showsG _ lists).bounds)
      (onChip h (List.mem_of_getElem? hh) _ (showsH _ lists).bounds)
      (positive _ (List.getElem_mem isFree))

/-- The costs of all pairs of geometries make up the wire length. -/
theorem Added.sum_geometryCost (added : Added p.chip picks ⟨.empty, []⟩ free geos) :
    ((orderedPairs (geos ++ BatchModel.surroundings p batch).zipIdx).map
      (geometryCost p batch traffic settings picks)).sum =
        wireLength p batch traffic settings picks := by
  have length := (added.shown_all batch (Assignment.lists_toArray _)).length_eq
  -- both lists of pairs are the pairs of the same positions
  let costAt (positions : Nat × Nat) : Rat :=
    match (modelled p batch picks)[positions.1]?, (modelled p batch picks)[positions.2]? with
    | some g, some h => pairCost traffic settings picks.length ((g, positions.1), (h, positions.2))
    | _, _ => 0
  have positions {β : Type} (l : List β) :
      (orderedPairs l.zipIdx).map (Prod.map Prod.snd Prod.snd) =
      orderedPairs (List.range' 0 l.length) := by
    rw [← orderedPairs_map, List.zipIdx_map_snd]
  have ofGroups : ∀ pair ∈ orderedPairs (modelled p batch picks).zipIdx,
      costAt (Prod.map Prod.snd Prod.snd pair) = pairCost traffic settings picks.length pair := by
    rintro ⟨⟨g, i⟩, h, j⟩ hpair
    obtain ⟨-, hg, hh⟩ := mem_orderedPairs_zipIdx.mp hpair
    simp only [costAt, Prod.map, hg, hh]
  have ofGeometries : geometryCost p batch traffic settings picks =
      costAt ∘ Prod.map Prod.snd Prod.snd := rfl
  rw [wireLength, ← List.map_congr_left ofGroups, ofGeometries, ← List.map_map, positions, length,
    ← positions, List.map_map]
  rfl

/-- A valid arrangement is encoded by a feasible assignment, at the cost of its wire length. -/
theorem Added.attained_of_arranged (traffic : TrafficTable Rat) (settings : PlacementSettings Rat)
    (added : Added p.chip picks ⟨.empty, []⟩ free geos)
    (positive : ∀ c ∈ picks, 0 < p.chip.width ∧ 0 < p.chip.height)
    (onChip : ∀ g ∈ modelled p batch picks, ∀ r ∈ g.bounds?, r.Proper ∧
      r.Within (chipBounds p.chip))
    (arranged : Arranged p batch picks) :
    ∃ a, (addParts (pairPart (p.chip.width + p.chip.height) traffic settings) free.model
        (orderedPairs (geos ++ BatchModel.surroundings p batch).zipIdx)).Feasible a ∧
      a.Lists 0 (picks.flatMap Pick.values) ∧
      (addParts (pairPart (p.chip.width + p.chip.height) traffic settings) free.model
        (orderedPairs (geos ++ BatchModel.surroundings p batch).zipIdx)).objective.eval a =
          free.model.objective.eval a + wireLength p batch traffic settings picks := by
  obtain ⟨values, solves⟩ := addParts_attains (m := free.model) fun _ hpair first =>
    added.pair_attains traffic settings positive onChip arranged hpair first
  obtain ⟨ofBatch, ofPairs⟩ :=
    EachFrom.append.mp (Assignment.lists_toArray (picks.flatMap Pick.values ++ values))
  have size : free.model.vars.size = 0 + (picks.flatMap Pick.values).length := added.size
  rw [← size] at ofPairs
  have nothing : Model.empty.Feasible (picks.flatMap Pick.values ++ values).toArray :=
    ⟨by simp [Model.empty], by simp [Model.empty]⟩
  have front := (added.feasible _ ofBatch).mpr ⟨nothing, arranged.onChip⟩
  obtain ⟨feasible, objective⟩ := solves _ ofBatch ofPairs front
  exact ⟨_, feasible, ofBatch, added.sum_geometryCost ▸ objective⟩

/-- A valid arrangement is encoded by a feasible assignment. -/
theorem Added.feasible_of_arranged (added : Added p.chip picks ⟨.empty, []⟩ free geos)
    (positive : 0 < p.chip.width ∧ 0 < p.chip.height)
    (onChip : ∀ g ∈ modelled p batch picks, ∀ r ∈ g.bounds?, r.Proper ∧
      r.Within (chipBounds p.chip))
    (arranged : Arranged p batch picks) :
    ∃ a, (addParts (pairPart (p.chip.width + p.chip.height) traffic settings) free.model
        (orderedPairs (geos ++ BatchModel.surroundings p batch).zipIdx)).Feasible a ∧
      a.Lists 0 (picks.flatMap Pick.values) := by
  obtain ⟨a, feasible, lists, -⟩ := added.attained_of_arranged traffic settings
    (fun _ _ => positive) onChip arranged
  exact ⟨a, feasible, lists⟩

end

/-- **The model of a batch is exact.** On a chip with a width and a height, around placed groups
that lie on it, the model of a batch is built; and for any choice of a candidate size and a centre
for each group of the batch it has a feasible assignment that encodes the choice precisely if the
choice makes a valid arrangement. -/
theorem BatchModel.build_exact (p : Floorplan Rat) (batch : List String)
    (traffic : TrafficTable Rat) (settings : PlacementSettings Rat) (picks : List Pick)
    (positive : 0 < p.chip.width ∧ 0 < p.chip.height)
    (around : ∀ g ∈ p.groups.values, g.name ∉ batch → ∀ r ∈ g.bounds?,
      r.Proper ∧ r.Within (chipBounds p.chip))
    (found : List.Forall₂ (fun name c => p.groups.find? name = some c.group) batch picks)
    (suits : ∀ c ∈ picks, c.Suits) :
    ∃ built, build p batch traffic settings = .ok built ∧
      ((∃ a, built.model.Feasible a ∧ built.Encodes a picks) ↔ Arranged p batch picks) := by
  obtain ⟨free, geos, run, added⟩ := added_foldlM (b := ⟨.empty, []⟩) found suits
  have geometries : free.geometries = geos := added.geometries
  refine ⟨_, build_eq run, ?_⟩
  rw [geometries]
  simp only [added.encodes_iff]
  constructor
  · rintro ⟨a, feasible, lists⟩
    exact added.arranged_of_feasible lists feasible
  · intro arranged
    exact added.feasible_of_arranged positive (onChip_modelled suits arranged around) arranged

def innerGroup : AreaGroup Rat :=
  { name := "inner", area := 100, dimension := .options [⟨10, 10⟩, ⟨20, 5⟩], parent := some "core" }

def outerGroup : AreaGroup Rat :=
  { name := "outer", area := 400, x := some 10, dimension := .options [⟨20, 20⟩] }

/-- A placed group, a child of it, and a group whose horizontal position is fixed. -/
def nestedPlan : Floorplan Rat :=
  { chip := ⟨100, 100⟩
    groups := .ofList
      [("core", { name := "core", area := 1600, x := some 50, y := some 50
                  dimension := .fixed ⟨40, 40⟩ }),
       ("inner", innerGroup), ("outer", outerGroup)] }

/-- The second size for the child, with its centre at the given place. -/
def nestedPicks (x y : Rat) : List Pick := [⟨innerGroup, 1, x, y⟩, ⟨outerGroup, 0, 10, 30⟩]

/-- The model admits the child inside its parent, and not where it reaches over the edge of it. -/
theorem BatchModel.build_exact_nested :
    (0 < nestedPlan.chip.width ∧ 0 < nestedPlan.chip.height) ∧
    (∀ g ∈ nestedPlan.groups.values, g.name ∉ ["inner", "outer"] → ∀ r ∈ g.bounds?,
      r.Proper ∧ r.Within (chipBounds nestedPlan.chip)) ∧
    (∀ c ∈ nestedPicks 60 40, c.Suits) ∧ (∀ c ∈ nestedPicks 61 40, c.Suits) ∧
    ∃ built, build nestedPlan ["inner", "outer"] .empty {} = .ok built ∧
      (∃ a, built.model.Feasible a ∧ built.Encodes a (nestedPicks 60 40)) ∧
      ¬ ∃ a, built.model.Feasible a ∧ built.Encodes a (nestedPicks 61 40) := by
  have positive : 0 < nestedPlan.chip.width ∧ 0 < nestedPlan.chip.height := by decide +kernel
  have around : ∀ g ∈ nestedPlan.groups.values, g.name ∉ ["inner", "outer"] → ∀ r ∈ g.bounds?,
      r.Proper ∧ r.Within (chipBounds nestedPlan.chip) := by decide +kernel
  have found (x y : Rat) : List.Forall₂ (fun name c => nestedPlan.groups.find? name = some c.group)
      ["inner", "outer"] (nestedPicks x y) := by
    have inner : nestedPlan.groups.find? "inner" = some innerGroup := by decide +kernel
    have outer : nestedPlan.groups.find? "outer" = some outerGroup := by decide +kernel
    exact .cons inner (.cons outer .nil)
  have inside : ∀ c ∈ nestedPicks 60 40, c.Suits := by decide +kernel
  have across : ∀ c ∈ nestedPicks 61 40, c.Suits := by decide +kernel
  obtain ⟨built, hbuilt, admits⟩ := build_exact nestedPlan ["inner", "outer"] .empty {}
    (nestedPicks 60 40) positive around (found 60 40) inside
  obtain ⟨built', hbuilt', refuses⟩ := build_exact nestedPlan ["inner", "outer"] .empty {}
    (nestedPicks 61 40) positive around (found 61 40) across
  obtain rfl : built = built' := Except.ok.inj (hbuilt.symm.trans hbuilt')
  exact ⟨positive, around, inside, across, built, hbuilt, admits.mpr (by decide +kernel),
    fun encoded => absurd (refuses.mp encoded) (by decide +kernel)⟩

end HardwareLinker.Floorplan
