import HardwareLinker.Proofs.Floorplan.Answer
import HardwareLinker.Proofs.Floorplan.Keyed

/-!
Plans in which some groups have been picked and placed, with their centres rounded. In a settled
plan the picked groups lie on the chip and agree with each other and with the groups that were
placed before; an answer for one more batch keeps it settled.
-/

namespace HardwareLinker.Floorplan

variable {p q : Floorplan Rat} {picks more : List Pick} {batch : List String} {c : Pick}

/-- The pick of a group, if it has one. -/
def picked? (picks : List Pick) (name : String) : Option Pick :=
  picks.find? fun c => c.group.name == name

/-- The plan with the groups of the picks placed, their centres rounded. -/
def withPicks (p : Floorplan Rat) (picks : List Pick) : Floorplan Rat :=
  { p with groups := p.groups.mapValues fun name g =>
      match picked? picks name with
      | some c => c.rounded.placed
      | none => g }

/-! ### Picked groups -/

theorem picked?_eq_none {name : String} :
    picked? picks name = none ↔ name ∉ picks.map (·.group.name) := by
  simp [picked?]

theorem picked?_eq_some {name : String} (h : picked? picks name = some c) :
    c ∈ picks ∧ c.group.name = name :=
  ⟨List.mem_of_find?_eq_some h, by simpa using List.find?_some h⟩

theorem picked?_append {name : String} :
    picked? (picks ++ more) name = (picked? picks name).or (picked? more name) :=
  List.find?_append

theorem picked?_of_mem (distinct : (picks.map (·.group.name)).Nodup) (hc : c ∈ picks) :
    picked? picks c.group.name = some c := by
  cases h : picked? picks c.group.name with
  | none => exact absurd (List.mem_map_of_mem hc) (picked?_eq_none.mp h)
  | some d =>
      obtain ⟨hd, name⟩ := picked?_eq_some h
      rw [List.inj_on_of_nodup_map distinct hd hc name]

theorem mem_withPicks {name : String} {h : AreaGroup Rat} :
    (name, h) ∈ (p.withPicks picks).groups.entries ↔ ∃ g, (name, g) ∈ p.groups.entries ∧
      h = match picked? picks name with
        | some c => c.rounded.placed
        | none => g :=
  NameMap.mem_mapValues

theorem mem_withPicks_of_not_picked {name : String} {g : AreaGroup Rat}
    (hg : (name, g) ∈ p.groups.entries) (fresh : name ∉ picks.map (·.group.name)) :
    (name, g) ∈ (p.withPicks picks).groups.entries :=
  mem_withPicks.mpr ⟨g, hg, by rw [picked?_eq_none.mpr fresh]⟩

/-- A group of the plan is a pick, or as it was. -/
theorem cases_of_mem_withPicks {name : String} {h : AreaGroup Rat}
    (mem : (name, h) ∈ (p.withPicks picks).groups.entries) :
    (∃ c ∈ picks, c.group.name = name ∧ h = c.rounded.placed) ∨
      name ∉ picks.map (·.group.name) ∧ (name, h) ∈ p.groups.entries := by
  obtain ⟨g, hg, rfl⟩ := mem_withPicks.mp mem
  cases hpick : picked? picks name with
  | none => exact .inr ⟨picked?_eq_none.mp hpick, hg⟩
  | some c =>
      obtain ⟨hc, name⟩ := picked?_eq_some hpick
      exact .inl ⟨c, hc, name, rfl⟩

theorem Pick.name_rounded (c : Pick) : c.rounded.placed.name = c.group.name := c.rounded.name_placed

theorem Keyed.withPicks (keyed : p.Keyed) : (p.withPicks picks).Keyed := by
  rintro ⟨name, h⟩ mem
  rcases cases_of_mem_withPicks mem with ⟨c, -, rfl, rfl⟩ | ⟨-, mem⟩
  · exact c.name_rounded
  · exact keyed _ mem

theorem withPicks_nil (p : Floorplan Rat) : p.withPicks [] = p := by
  have groups : (p.withPicks []).groups = p.groups :=
    NameMap.ext_entries (List.map_id' p.groups.entries)
  rw [withPicks] at groups ⊢
  exact congrArg (Floorplan.mk p.chip) groups

/-! ### Placing what has been read -/

theorem place_withPicks {placement : Placement Rat}
    (found : p.groups.find? c.group.name = some c.group)
    (fresh : c.group.name ∉ picks.map (·.group.name)) (read : c.ReadAs placement) :
    (p.withPicks picks).place placement.name placement.x placement.y placement.size =
      p.withPicks (picks ++ [c]) := by
  have one (name : String) : picked? [c] name = if c.group.name = name then some c else none := by
    by_cases h : c.group.name = name <;> simp [picked?, h]
  refine congrArg (Floorplan.mk p.chip) (NameMap.ext_entries ?_)
  simp only [withPicks, NameMap.modify, NameMap.mapValues, List.map_map]
  refine List.map_congr_left ?_
  rintro ⟨name, g⟩ hg
  simp only [Function.comp_apply, picked?_append, one, Prod.mk.injEq, true_and, read.name]
  by_cases h : c.group.name = name
  · subst h
    obtain rfl := p.groups.value_unique hg (NameMap.find?_eq_some.mp found)
    simp [picked?_eq_none.mpr fresh, Pick.placed_rounded read.size, read.x, read.y]
  · cases picked? picks name <;> simp [h, Ne.symm h]

theorem placeAll_withPicks {placements : List (Placement Rat)}
    (found : ∀ c ∈ more, p.groups.find? c.group.name = some c.group)
    (distinct : ((picks ++ more).map (·.group.name)).Nodup)
    (read : List.Forall₂ Pick.ReadAs more placements) :
    placeAll (p.withPicks picks) placements = p.withPicks (picks ++ more) := by
  induction read generalizing picks with
  | nil => rw [List.append_nil]; rfl
  | @cons c _ more _ head _ ih =>
      obtain ⟨foundHead, foundTail⟩ := List.forall_mem_cons.mp found
      have fresh : c.group.name ∉ picks.map (·.group.name) := by
        rw [List.map_append, List.nodup_append'] at distinct
        exact fun h => distinct.2.2 h (List.mem_map_of_mem List.mem_cons_self)
      rw [List.append_cons] at distinct ⊢
      rw [← ih foundTail distinct, ← place_withPicks foundHead fresh head]
      rfl

/-! ### Arrangements by members -/

theorem Arranged.fits_around (arranged : Arranged p batch picks) (hc : c ∈ picks)
    {g : AreaGroup Rat} (hg : g ∈ placedAround p batch)
    (boxes : ¬ (c.placed.isEmptyBox = true ∧ g.isEmptyBox = true)) : c.placed.Fits g := by
  obtain ⟨i, hi⟩ := List.getElem?_of_mem hc
  obtain ⟨j, hj⟩ := List.getElem?_of_mem hg
  have lt := (List.getElem?_eq_some_iff.mp hi).1
  refine arranged.fits i (picks.length + j) _ _ (by omega) lt ?_ ?_ boxes
  · rw [modelled, List.getElem?_append_left (by simpa using lt), List.getElem?_map, hi]
    rfl
  · rw [modelled, List.getElem?_append_right (by simp), List.length_map,
      Nat.add_sub_cancel_left, hj]

theorem Arranged.pairwise_agree (arranged : Arranged p batch picks) (suits : ∀ c ∈ picks, c.Suits) :
    picks.Pairwise fun c d => c.rounded.placed.Agree d.rounded.placed := by
  rw [List.pairwise_iff_getElem]
  intro i j hi hj less
  refine AreaGroup.agree_of_fits (Pick.moved_rounded (suits _ (List.getElem_mem hi)))
    (Pick.moved_rounded (suits _ (List.getElem_mem hj))) (arranged.fits i j _ _ less hi ?_ ?_)
  · rw [modelled, List.getElem?_append_left (by simpa using hi)]
    simp [List.getElem?_eq_getElem hi]
  · rw [modelled, List.getElem?_append_left (by simpa using hj)]
    simp [List.getElem?_eq_getElem hj]

/-! ### Settled plans -/

/-- The picks, each of a free group of the plan, lie on the chip and agree with each other and with
the placed groups of the plan. -/
structure Settled (p : Floorplan Rat) (picks : List Pick) : Prop where
  found : ∀ c ∈ picks, p.groups.find? c.group.name = some c.group
  free : ∀ c ∈ picks, c.group.isPlaced = false
  suits : ∀ c ∈ picks, c.Suits
  distinct : (picks.map (·.group.name)).Nodup
  inside : ∀ c ∈ picks, p.contains c.rounded.placed = true
  agree : picks.Pairwise fun c d => c.rounded.placed.Agree d.rounded.placed
  around : ∀ c ∈ picks, ∀ g ∈ p.groups.values, g.isPlaced = true → c.rounded.placed.Agree g

theorem Settled.nil (p : Floorplan Rat) : Settled p [] := by
  constructor <;> simp

theorem Pick.isPlaced_rounded (suits : c.Suits) : c.rounded.placed.isPlaced = true := by
  obtain ⟨s, hs, -⟩ := suits.size
  exact AreaGroup.isPlaced_iff.mpr ⟨_, placed_rounded hs ▸ AreaGroup.bounds?_place ..⟩

/-- A placed group of the plan has no pick. -/
theorem Settled.not_picked (settled : Settled p picks) {name : String} {g : AreaGroup Rat}
    (hg : (name, g) ∈ p.groups.entries) (placed : g.isPlaced = true) :
    name ∉ picks.map (·.group.name) := by
  intro mem
  obtain ⟨c, hc, rfl⟩ := List.mem_map.mp mem
  obtain rfl := p.groups.value_unique hg (NameMap.find?_eq_some.mp (settled.found c hc))
  rw [settled.free c hc] at placed
  cases placed

theorem Settled.mem_placed (settled : Settled p picks) (hc : c ∈ picks) :
    (c.group.name, c.rounded.placed) ∈ (p.withPicks picks).groups.entries :=
  mem_withPicks.mpr ⟨c.group, NameMap.find?_eq_some.mp (settled.found c hc),
    by rw [picked?_of_mem settled.distinct hc]⟩

theorem mem_placedAround {g : AreaGroup Rat} : g ∈ placedAround p batch ↔
    g ∈ p.groups.values ∧ g.name ∉ batch ∧ g.isPlaced = true := by
  simp [placedAround]

/-- Two placed groups agree, unless both are as they were before. -/
theorem Settled.agree_of_mem (settled : Settled p picks) {name name' : String} {g h : AreaGroup Rat}
    (hg : (name, g) ∈ (p.withPicks picks).groups.entries)
    (hh : (name', h) ∈ (p.withPicks picks).groups.entries) (different : name ≠ name')
    (placedG : g.isPlaced = true) (placedH : h.isPlaced = true) :
    g.Agree h ∨ (name, g) ∈ p.groups.entries ∧ (name', h) ∈ p.groups.entries := by
  have : Std.Symm fun c d : Pick => c.rounded.placed.Agree d.rounded.placed :=
    ⟨fun _ _ agree => agree.symm⟩
  rcases cases_of_mem_withPicks hg with ⟨c, hc, rfl, rfl⟩ | ⟨-, hg⟩
  · rcases cases_of_mem_withPicks hh with ⟨d, hd, rfl, rfl⟩ | ⟨-, hh⟩
    · exact .inl (settled.agree.forall hc hd fun e => different (congrArg (·.group.name) e))
    · exact .inl (settled.around c hc h (NameMap.mem_values.mpr ⟨_, hh⟩) placedH)
  · rcases cases_of_mem_withPicks hh with ⟨d, hd, rfl, rfl⟩ | ⟨-, hh⟩
    · exact .inl (settled.around d hd g (NameMap.mem_values.mpr ⟨_, hg⟩) placedG).symm
    · exact .inr ⟨hg, hh⟩

/-- The batch holds free groups of the plan that have no pick yet. -/
structure Awaits (p : Floorplan Rat) (picks : List Pick) (batch : List String) : Prop where
  distinct : batch.Nodup
  fresh : ∀ name ∈ batch, name ∉ picks.map (·.group.name)
  free : ∀ name ∈ batch, ∀ g, p.groups.find? name = some g → g.isPlaced = false

theorem Answered.names (keyed : p.Keyed) (answered : Answered (p.withPicks picks) batch more)
    (awaits : Awaits p picks batch) :
    more.map (·.group.name) = batch ∧ ∀ c ∈ more, p.groups.find? c.group.name = some c.group := by
  have each : List.Forall₂ (fun name c => c.group.name = name ∧
      p.groups.find? c.group.name = some c.group) batch more := by
    refine (List.forall₂_iff_get.mpr ⟨answered.found.length_eq, fun i hi hj => ?_⟩)
    have found := answered.found.get hi hj
    have fresh := awaits.fresh _ (List.get_mem batch ⟨i, hi⟩)
    rcases cases_of_mem_withPicks (NameMap.find?_eq_some.mp found) with ⟨d, hd, name, -⟩ | ⟨-, mem⟩
    · exact absurd (List.mem_map.mpr ⟨d, hd, name⟩) fresh
    · have name := keyed _ mem
      exact ⟨name, by rw [name]; exact NameMap.find?_eq_some.mpr mem⟩
  constructor
  · have names : List.Forall₂ Eq batch (more.map (·.group.name)) :=
      List.forall₂_map_right_iff.mpr (each.imp fun _ _ h => h.1.symm)
    rwa [List.forall₂_eq_eq_eq, eq_comm] at names
  · intro c hc
    obtain ⟨k, hk⟩ := List.getElem?_of_mem hc
    obtain ⟨name, -, -, found⟩ := exists_of_getElem? each.flip hk
    exact found

/-- An answer for one more batch keeps the plan settled. -/
theorem Settled.append (keyed : p.Keyed) (settled : Settled p picks) (awaits : Awaits p picks batch)
    (answered : Answered (p.withPicks picks) batch more) : Settled p (picks ++ more) := by
  obtain ⟨names, found⟩ := answered.names keyed awaits
  have mem_batch {c : Pick} (hc : c ∈ more) : c.group.name ∈ batch := names ▸ List.mem_map_of_mem hc
  have moved {c : Pick} (hc : c ∈ more) := Pick.moved_rounded (answered.suits c hc)
  have agree_placed {c : Pick} (hc : c ∈ more) {g : AreaGroup Rat}
      (hg : g ∈ placedAround (p.withPicks picks) batch) : c.rounded.placed.Agree g :=
    AreaGroup.agree_of_fits (moved hc) (.refl g) (answered.arranged.fits_around hc hg)
  constructor
  case found => exact List.forall_mem_append.mpr ⟨settled.found, found⟩
  case free =>
    refine List.forall_mem_append.mpr ⟨settled.free, fun c hc => ?_⟩
    exact awaits.free _ (mem_batch hc) _ (found c hc)
  case suits => exact List.forall_mem_append.mpr ⟨settled.suits, answered.suits⟩
  case distinct =>
    rw [List.map_append, names, List.nodup_append']
    exact ⟨settled.distinct, awaits.distinct, fun name hp hb => awaits.fresh name hb hp⟩
  case inside =>
    refine List.forall_mem_append.mpr ⟨settled.inside, fun c hc => ?_⟩
    obtain ⟨r', hr'⟩ := AreaGroup.isPlaced_iff.mp (Pick.isPlaced_rounded (answered.suits c hc))
    obtain ⟨r, hr, near⟩ := (moved hc).bounds r' hr'
    have within := answered.arranged.onChip _ (List.mem_map_of_mem hc) r hr
    rw [contains, hr']
    exact Bounds.boundsInside_of_within within near
  case agree =>
    refine List.pairwise_append.mpr ⟨settled.agree,
      answered.arranged.pairwise_agree answered.suits, ?_⟩
    intro c hc d hd
    refine (agree_placed hd ?_).symm
    refine mem_placedAround.mpr ⟨NameMap.mem_values.mpr ⟨_, settled.mem_placed hc⟩, ?_,
      Pick.isPlaced_rounded (settled.suits c hc)⟩
    rw [c.name_rounded]
    exact fun mem => awaits.fresh c.group.name mem (List.mem_map_of_mem hc)
  case around =>
    refine List.forall_mem_append.mpr ⟨settled.around, fun c hc g hg placed => agree_placed hc ?_⟩
    obtain ⟨name, mem⟩ := NameMap.mem_values.mp hg
    have kept := mem_withPicks_of_not_picked mem (settled.not_picked mem placed)
    refine mem_placedAround.mpr ⟨NameMap.mem_values.mpr ⟨_, kept⟩, fun inBatch => ?_, placed⟩
    have unplaced := awaits.free _ inBatch g (NameMap.find?_eq_some.mpr (keyed _ mem ▸ mem))
    rw [placed] at unplaced
    cases unplaced

end HardwareLinker.Floorplan
