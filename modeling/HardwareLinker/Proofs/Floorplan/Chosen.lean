import HardwareLinker.Proofs.Floorplan.Nesting

/-!
What batches do to a plan, whatever the solver answers. A free group gets one of its own sizes, one
of positive extents, and a centre; placed groups, names and the chip stay. A batch size that is
given up leaves nothing behind, because the next one starts from the plan before it.
-/

namespace HardwareLinker

variable {α : Type} [Scalar α]

omit [Scalar α] in
theorem AreaGroup.exists_fixed {g : AreaGroup α} (placed : g.isPlaced = true) :
    ∃ s, g.dimension = .fixed s := by
  simp only [isPlaced, Bool.and_eq_true, Option.isSome_iff_exists,
    Dimension.fixed?_eq_some] at placed
  exact placed.2

/-- The group as it was, or a free one that has been put somewhere with one of its sizes. -/
inductive AreaGroup.Chosen (g : AreaGroup α) : AreaGroup α → Prop where
  | kept : Chosen g g
  | put (x y : α) {s : Size α} (free : g.isPlaced = false) (offered : s ∈ g.dimension.choices)
      (wide : ¬ s.width ≤ 0) (high : ¬ s.height ≤ 0) : Chosen g (g.place x y s)

namespace AreaGroup.Chosen

variable {g h : AreaGroup α}

theorem name_eq (chosen : g.Chosen h) : h.name = g.name := by
  cases chosen <;> rfl

theorem choices_subset (chosen : g.Chosen h) : h.dimension.choices ⊆ g.dimension.choices := by
  cases chosen with
  | kept => exact List.Subset.refl _
  | put x y free offered => exact List.cons_subset.mpr ⟨offered, List.nil_subset _⟩

/-- Of what has been put once more only the last place and size are left. -/
theorem place (chosen : g.Chosen h) {s : Size α} (free : g.isPlaced = false)
    (offered : s ∈ g.dimension.choices) (wide : ¬ s.width ≤ 0) (high : ¬ s.height ≤ 0) (x y : α) :
    g.Chosen (h.place x y s) := by
  cases chosen with
  | kept => exact .put x y free offered wide high
  | put => exact .put x y free offered wide high

end AreaGroup.Chosen

namespace Floorplan

variable {p q q' : Floorplan α} {r : Run α} {batch : List String} {asked : List (Milp.Model α)}

/-- The groups of these names are free ones, as far as they exist. -/
def FreeIn (p : Floorplan α) (names : List String) : Prop :=
  ∀ name ∈ names, ∀ g, p.groups.find? name = some g → g.isPlaced = false

/-- The first plan with some of its free groups put somewhere. -/
structure Completes (p q : Floorplan α) : Prop where
  chip : q.chip = p.chip
  groups : NameMap.Related AreaGroup.Chosen p.groups q.groups

/-- The placement puts a free group of the plan somewhere with one of its sizes. -/
def Admits (p : Floorplan α) (placement : Placement α) : Prop :=
  ∃ g, p.groups.find? placement.name = some g ∧ g.isPlaced = false ∧
    placement.size ∈ g.dimension.choices ∧ ¬ placement.size.width ≤ 0 ∧ ¬ placement.size.height ≤ 0

/-! ### One batch -/

theorem Completes.refl (p : Floorplan α) : p.Completes p :=
  ⟨rfl, .refl (fun _ => .kept) p.groups⟩

theorem Completes.keyed (completes : p.Completes q) (keyed : p.Keyed) : q.Keyed := by
  rintro ⟨name, h⟩ mem
  obtain ⟨g, found, chosen⟩ := completes.groups.origin (NameMap.find?_eq_some.mpr mem)
  exact chosen.name_eq.trans (AreaGroup.Keyed.name_eq keyed found)

theorem Completes.place (completes : p.Completes q) {placement : Placement α}
    (admits : p.Admits placement) :
    p.Completes (q.place placement.name placement.x placement.y placement.size) where
  chip := completes.chip
  groups := by
    obtain ⟨g, found, free, offered, wide, high⟩ := admits
    refine completes.groups.mapValues fun name g' h found' chosen => ?_
    split
    · next same =>
      obtain rfl := beq_iff_eq.mp same
      obtain rfl := Option.some.inj (found.symm.trans found')
      exact chosen.place free offered wide high _ _
    · exact chosen

theorem Completes.placeAll (completes : p.Completes q) {placements : List (Placement α)}
    (admits : ∀ placement ∈ placements, p.Admits placement) :
    p.Completes (q.placeAll placements) := by
  unfold Floorplan.placeAll
  exact List.foldlRecOn placements _ completes fun _ done placement mem =>
    done.place (admits placement mem)

namespace BatchModel

theorem mem_of_selected? {sizes : List (Nat × Size α)} {a : Milp.Assignment α} {s : Size α}
    (selected : selected? sizes a = some s) : ∃ v, (v, s) ∈ sizes := by
  unfold selected? at selected
  obtain ⟨⟨v, s⟩, best, rfl⟩ := Option.map_eq_some_iff.mp selected
  refine ⟨v, ?_⟩
  revert best
  refine List.foldlRecOn (motive := fun best => best = some (v, s) → (v, s) ∈ sizes) sizes _
    (fun h => by cases h) ?_
  intro best ih e he
  cases best with
  | none => exact fun h => Option.some.inj h ▸ he
  | some b =>
      dsimp only
      split
      · exact ih
      · exact fun h => Option.some.inj h ▸ he

/-- The model decides about groups of the batch only, and offers them their own sizes. -/
theorem offers_of_build {built : BatchModel α} {traffic : TrafficTable α}
    {settings : PlacementSettings α} (run : build p batch traffic settings = .ok built) :
    ∀ geo ∈ built.geometries, ∀ c ∈ geo.choice, ∃ name ∈ batch, ∃ g,
      p.groups.find? name = some g ∧ geo.name = g.name ∧
      ∀ e ∈ c.sizes, e.2 ∈ g.dimension.choices := by
  obtain ⟨free, added, run⟩ := bind_eq_ok run
  cases run
  intro geo hgeo c hc
  rcases List.mem_append.mp hgeo with hgeo | hgeo
  · revert geo
    suffices ∀ geo ∈ free.geometries, c ∈ geo.choice → ∃ name ∈ batch, ∃ g,
        p.groups.find? name = some g ∧ geo.name = g.name ∧
        ∀ e ∈ c.sizes, e.2 ∈ g.dimension.choices from
      fun geo _ hc hgeo => this geo hgeo hc
    revert added
    refine foldlM_invariant_of_mem (P := fun b : BatchModel α =>
      ∀ geo ∈ b.geometries, c ∈ geo.choice →
      ∃ name ∈ batch, ∃ g, p.groups.find? name = some g ∧ geo.name = g.name ∧
        ∀ e ∈ c.sizes, e.2 ∈ g.dimension.choices) ?_ (by simp)
    intro name hname b b' before step geo hgeo hc
    obtain ⟨g, found, -, rfl⟩ := addFree_eq_ok step
    rcases List.mem_append.mp hgeo with hgeo | hgeo
    · exact before geo hgeo hc
    · obtain rfl := List.mem_singleton.mp hgeo
      obtain rfl := Option.mem_some.mp hc
      refine ⟨name, hname, g, found, rfl, fun e he => ?_⟩
      obtain ⟨⟨s, k⟩, mem, rfl⟩ := List.mem_map.mp he
      exact (List.mem_zipIdx mem).2.2 ▸ List.getElem_mem _
  · rw [mem_surroundings hgeo] at hc
    cases hc

end BatchModel

theorem admits_of_extract (completes : p.Completes q) (keyed : p.Keyed) (free : p.FreeIn batch)
    {built : BatchModel α} {a : Milp.Assignment α} {placements : List (Placement α)}
    (run : BatchModel.build q batch r.traffic r.settings = .ok built)
    (read : built.extract a = .ok placements) : ∀ placement ∈ placements, p.Admits placement := by
  intro placement mem
  unfold BatchModel.extract at read
  dsimp only at read
  split at read
  · cases read
  obtain ⟨⟨name, c⟩, hc, read⟩ := exists_of_mapM read placement mem
  obtain ⟨geo, hgeo, chosen⟩ := List.mem_filterMap.mp hc
  obtain ⟨c, choice, same⟩ := Option.map_eq_some_iff.mp chosen
  cases same
  obtain ⟨key, inBatch, h, found, named, offered⟩ :=
    BatchModel.offers_of_build run geo hgeo c choice
  obtain ⟨g, before, chosen⟩ := completes.groups.origin found
  unfold BatchModel.readPlacement at read
  split at read
  · cases read
  next s selected =>
  split at read
  · cases read
  next proper =>
  cases read
  obtain ⟨v, mem⟩ := BatchModel.mem_of_selected? selected
  simp only [Bool.or_eq_true, decide_eq_true_eq, not_or] at proper
  have name : geo.name = key :=
    named.trans (AreaGroup.Keyed.name_eq (completes.keyed keyed) found)
  exact ⟨g, name ▸ before, free key inBatch g before, chosen.choices_subset (offered _ mem), proper⟩

theorem placeBatch_completes (completes : p.Completes q) (keyed : p.Keyed) (free : p.FreeIn batch)
    (placed : (r.placeBatch q batch asked).1 = .ok q') : p.Completes q' := by
  unfold Run.placeBatch at placed
  split at placed
  · cases placed
  next built build =>
  dsimp only at placed
  split at placed
  · cases placed
  next a answer =>
  obtain ⟨placements, read, rfl⟩ := map_eq_ok placed
  exact completes.placeAll (admits_of_extract completes keyed free build read)

/-! ### All batches -/

theorem placeBatches_completes {batches : List (List String)} (completes : p.Completes q)
    (keyed : p.Keyed) (free : p.FreeIn batches.flatten)
    (placed : (r.placeBatches q batches asked).1 = .ok q') : p.Completes q' := by
  induction batches generalizing q asked with
  | nil =>
      obtain ⟨-, -, rfl⟩ := map_eq_ok placed
      exact completes
  | cons batch rest ih =>
      have front : p.FreeIn batch := fun name h => free name (List.mem_append_left _ h)
      have back : p.FreeIn rest.flatten := fun name h => free name (List.mem_append_right _ h)
      rw [Run.placeBatches] at placed
      split at placed
      · cases placed
      next between asked' first =>
      exact ih (placeBatch_completes completes keyed front (congrArg Prod.fst first)) back placed

/-- Every batch size starts from the same plan, so that the last one alone counts. -/
theorem tryBatchSizes_completes {order : List String} {sizes : List Nat} {last : Option (Fault α)}
    (keyed : p.Keyed) (free : p.FreeIn order)
    (placed : (r.tryBatchSizes p order sizes last asked).1 = .ok q) : p.Completes q := by
  induction sizes generalizing last asked with
  | nil => cases placed
  | cons size rest ih =>
      rw [Run.tryBatchSizes] at placed
      split at placed
      · next between asked' first =>
        cases placed
        refine placeBatches_completes (.refl p) keyed ?_ (congrArg Prod.fst first)
        rwa [flatten_chunks]
      · exact ih placed

theorem Keyed.free_solveOrder (keyed : p.Keyed) : p.FreeIn (solveOrder p) := by
  intro name mem g found
  obtain ⟨h, hh, free, rfl⟩ := mem_solveOrder.mp mem
  obtain rfl := Option.some.inj ((keyed.find? hh).symm.trans found)
  exact free

/-- Whatever the solver answers, a plan that is handed out is the one that the batches start from,
with free groups put somewhere with one of their sizes. -/
theorem Keyed.solve_completes {prior : Option (NameMap (AreaGroup α))} (keyed : p.Keyed)
    (solved : r.solve p prior = .ok q) : (r.base p prior).Completes q := by
  have keyedBase := keyed.base r prior
  unfold Run.solve Run.solveAsking at solved
  dsimp only at solved
  split at solved
  · cases solved
    exact .refl _
  · exact tryBatchSizes_completes keyedBase keyedBase.free_solveOrder solved

/-! ### Groups that were placed -/

omit [Scalar α] in
theorem Ruled.find?_of_placed {done : List String × Floorplan α} {name : String} {g : AreaGroup α}
    (ruled : Ruled p done) (found : p.groups.find? name = some g) (placed : g.isPlaced = true) :
    done.2.groups.find? name = some g := by
  have unruled : name ∉ done.1 := by
    intro mem
    have free := ruled.free name mem g found
    rw [placed] at free
    cases free
  exact (ruled.kept name unruled).trans found

theorem Completes.find?_of_placed {name : String} {g : AreaGroup α} (completes : p.Completes q)
    (found : p.groups.find? name = some g) (placed : g.isPlaced = true) :
    q.groups.find? name = some g := by
  obtain ⟨h, after, chosen⟩ := completes.groups.image found
  cases chosen with
  | kept => exact after
  | put x y free =>
      rw [placed] at free
      cases free

/-- Where there is a single size, it is chosen. -/
theorem Completes.size_of_fixed {name : String} {g : AreaGroup α} {s : Size α}
    (completes : p.Completes q) (found : p.groups.find? name = some g)
    (size : g.dimension = .fixed s) :
    ∃ h, q.groups.find? name = some h ∧ h.dimension = .fixed s := by
  obtain ⟨h, after, chosen⟩ := completes.groups.image found
  refine ⟨h, after, ?_⟩
  cases chosen with
  | kept => exact size
  | put x y free offered =>
      rw [size] at offered
      exact congrArg Dimension.fixed (List.mem_singleton.mp offered)

/-- A run without an earlier one leaves placed groups as they are. -/
theorem Keyed.find?_solve_of_placed {name : String} {g : AreaGroup α} (keyed : p.Keyed)
    (solved : r.solve p none = .ok q) (found : p.groups.find? name = some g)
    (placed : g.isPlaced = true) : q.groups.find? name = some g := by
  have ruled := applyRules_ruled keyed r.settings.rules
  exact (keyed.solve_completes solved).find?_of_placed (ruled.find?_of_placed found placed) placed

end Floorplan
end HardwareLinker
