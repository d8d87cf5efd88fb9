import HardwareLinker.Proofs.Binary64
import HardwareLinker.Proofs.Constraint.Hierarchy
import HardwareLinker.Proofs.Floorplan.Sizes

/-!
Where the area of a group comes from. The entries of the table that no declaration covers become
groups first; then every group looks its area up, and only then a group without an area sums its
children, whose areas are final by that time since children have no children.
-/

namespace HardwareLinker

namespace Floorplan

variable {α : Type} [Scalar α] {declared : NameMap (AreaGroup α)} {areas : NameMap α}
  {name : String}

/-! ### Groups before their areas -/

/-- A declared group has the name, or has it for its source path. -/
def covers (declared : NameMap (AreaGroup α)) (name : String) : Bool :=
  declared.contains name || declared.values.any fun g => g.sourcePath == some name

/-- The group of a name before areas are looked up: the declared one, else one for the entry of the
table unless a declared source path covers it. -/
def tabled? (declared : NameMap (AreaGroup α)) (areas : NameMap α) (name : String) :
    Option (AreaGroup α) :=
  if covers declared name then declared.find? name
  else (areas.find? name).map fun area => { name, area }

omit [Scalar α] in
theorem find?_eq_none_of_not_covers (free : covers declared name = false) :
    declared.find? name = none := by
  rw [covers, Bool.or_eq_false_iff, NameMap.contains_eq_isSome] at free
  simpa using free.1

omit [Scalar α] in
theorem covers_eq (declared : NameMap (AreaGroup α)) (name : String) :
    (declared.contains name || (declared.values.filterMap (·.sourcePath)).contains name) =
      covers declared name := by
  rw [covers, List.contains_eq_any_beq, List.any_filterMap]
  congr 2
  funext g
  cases g.sourcePath with
  | none => rfl
  | some path => simp [eq_comm]

omit [Scalar α] in
theorem find?_withTableGroups (declared : NameMap (AreaGroup α)) (areas : NameMap α)
    (name : String) :
    (withTableGroups declared areas).find? name = tabled? declared areas name := by
  let enter (groups : NameMap (AreaGroup α)) (e : String × α) : NameMap (AreaGroup α) :=
    if covers declared e.1 then groups else groups.insert e.1 { name := e.1, area := e.2 }
  -- the names of a table are distinct, so what an entry has made is left alone by all later ones
  have fold (l : List (String × α)) (groups : NameMap (AreaGroup α))
      (distinct : l.Pairwise fun a b => a.1 < b.1) :
      (l.foldl enter groups).find? name =
        if covers declared name then groups.find? name
        else (((l.find? fun e => e.1 == name).map Prod.snd).map fun area =>
          ({ name, area } : AreaGroup α)).or (groups.find? name) := by
    induction l generalizing groups with
    | nil => simp
    | cons e rest ih =>
        obtain ⟨later, distinct⟩ := List.pairwise_cons.mp distinct
        rw [List.foldl_cons, ih _ distinct]
        by_cases covered : covers declared name = true
        · rw [if_pos covered, if_pos covered]
          by_cases same : e.1 = name
          · rw [show enter groups e = groups from if_pos (same ▸ covered)]
          · dsimp only [enter]
            split
            · rfl
            · rw [NameMap.find?_insert, if_neg (Ne.symm same)]
        · rw [if_neg covered, if_neg covered]
          by_cases same : e.1 = name
          · have absent : (rest.find? fun e => e.1 == name) = none := by
              rw [List.find?_eq_none]
              intro d hd
              rw [beq_iff_eq, ← same]
              exact fun eq => String.lt_irrefl _ (eq ▸ later d hd)
            rw [show enter groups e = groups.insert e.1 { name := e.1, area := e.2 } from
              if_neg (same ▸ covered), absent, NameMap.find?_insert, if_pos same.symm]
            simp [same]
          · rw [List.find?_cons_of_neg (by simpa using same)]
            congr 1
            dsimp only [enter]
            split
            · rfl
            · rw [NameMap.find?_insert, if_neg (Ne.symm same)]
  have start := fold areas.entries declared areas.ascending
  rw [withTableGroups]
  simp only [covers_eq]
  refine start.trans ?_
  rw [tabled?]
  split
  · rfl
  · next free =>
    rw [find?_eq_none_of_not_covers (Bool.eq_false_iff.mpr free), Option.or_none]
    rfl

/-! ### Areas and sizes -/

/-- The own area of a group: what the file requires if that is positive, else the entry for its
name, else the one for its source path, else what the file says. -/
def ownArea (areas : NameMap α) (g : AreaGroup α) : α :=
  if 0 < g.area then g.area
  else ((areas.find? g.name).or (g.sourcePath.bind areas.find?)).getD g.area

theorem assignArea_eq (areas : NameMap α) (g : AreaGroup α) :
    assignArea areas g = { g with area := ownArea areas g } := by
  rw [assignArea, ownArea, Option.orElse_eq_orElse, Option.orElse_eq_or]
  split
  · rfl
  · cases (areas.find? g.name).or (g.sourcePath.bind areas.find?) <;> rfl

theorem sumChildren_eq (groups : NameMap (AreaGroup α)) (g : AreaGroup α) :
    sumChildren groups g =
      { g with
        area :=
          if g.children ≠ [] ∧ g.area ≤ 0 then
            Scalar.sum ((g.children.filterMap groups.find?).map (·.area))
          else g.area } := by
  rw [sumChildren]
  simp only [Bool.and_eq_true, Bool.not_eq_true', List.isEmpty_eq_false_iff, decide_eq_true_eq]
  split <;> rfl

theorem sumChildren_of_no_children (groups : NameMap (AreaGroup α)) {g : AreaGroup α}
    (childless : g.children = []) : sumChildren groups g = g := by
  rw [sumChildren_eq, if_neg fun parent => parent.1 childless]

theorem area_offerSizes (ratios : List α) (g : AreaGroup α) :
    (offerSizes ratios g).area = g.area := by
  rw [offerSizes]
  split <;> rfl

theorem aspectOptions_ne_nil {area : α} {ratios : List α} (above : ¬ area ≤ 0)
    (some : ratios ≠ []) : aspectOptions area ratios ≠ [] := by
  have kept (rest : List α) (sizes : List (Size α)) (found : sizes ≠ []) :
      rest.foldl (fun sizes r =>
        if sizes.any (sameSize · (aspectOption area r)) then sizes
        else sizes ++ [aspectOption area r]) sizes ≠ [] := by
    induction rest generalizing sizes with
    | nil => exact found
    | cons r rest ih =>
        rw [List.foldl_cons]
        apply ih
        split
        · exact found
        · simp
  cases ratios with
  | nil => exact absurd rfl some
  | cons r rest =>
      rw [aspectOptions, if_neg above]
      exact kept rest [aspectOption area r] (by simp)

theorem offerSizes_of_fixed (ratios : List α) {g : AreaGroup α} {s : Size α}
    (fixed : g.dimension = .fixed s) : offerSizes ratios g = g := by
  rw [offerSizes, fixed]

theorem offerSizes_of_unset {ratios : List α} (some : ratios ≠ []) {g : AreaGroup α}
    (unset : g.dimension = .unset) : offerSizes ratios g =
      { g with
        dimension := if g.area ≤ 0 then .unset else .options (aspectOptions g.area ratios) } := by
  by_cases small : g.area ≤ 0
  · have none : aspectOptions g.area ratios = [] := by rw [aspectOptions, if_pos small]
    cases g with
    | mk => cases unset; rw [offerSizes, none, if_pos small]
  · rw [offerSizes, unset, if_neg small]
    cases offered : aspectOptions g.area ratios with
    | nil => exact absurd offered (aspectOptions_ne_nil small some)
    | cons s sizes => rfl

variable {set : ConstraintSet α} {settings : PlacementSettings α} {source : String}

/-- The groups once areas are looked up. -/
def assigned (set : ConstraintSet α) (areas : NameMap α) : NameMap (AreaGroup α) :=
  (withTableGroups set.groups areas).mapValues fun _ => assignArea areas

theorem elaborate_eq (areas : NameMap α) (settings : PlacementSettings α) {chip : Size α}
    (extent : set.chip = some chip) :
    ∃ p, elaborate set areas settings = .ok p ∧ p.chip = chip ∧
      ∀ name, p.groups.find? name = (tabled? set.groups areas name).map fun g =>
        offerSizes settings.aspectRatios
          (sumChildren (assigned set areas) (assignArea areas g)) := by
  rw [elaborate, extent]
  refine ⟨_, rfl, rfl, fun name => ?_⟩
  rw [NameMap.find?_mapValues, NameMap.find?_mapValues, NameMap.find?_mapValues,
    find?_withTableGroups, Option.map_map, Option.map_map]
  rfl

/-- A child is a declared group without children of its own. -/
theorem childless_of_child (read : ConstraintSet.ofText source = .ok set) {g : AreaGroup α}
    (found : set.groups.find? name = some g) {c : String} (child : c ∈ g.children) :
    ∃ h, set.groups.find? c = some h ∧ h.children = [] := by
  have hierarchy := ConstraintSet.hierarchy_ofText source set read
  obtain ⟨h, inside⟩ := hierarchy.declared name g found c child
  have other : name ≠ c := fun same => ConstraintSet.not_own_child read found (same ▸ child)
  have parent : h.parent = some name :=
    (hierarchy.mirrored c h name inside).mpr ⟨other, g, found, child⟩
  refine ⟨h, inside, (hierarchy.shallow c h inside).resolve_left ?_⟩
  simp [parent]

omit [Scalar α] in
theorem tabled?_of_declared {g : AreaGroup α} (found : declared.find? name = some g) :
    tabled? declared areas name = some g := by
  have covered : covers declared name = true := by
    rw [covers, NameMap.contains_eq_isSome, found]
    rfl
  rw [tabled?, if_pos covered, found]

omit [Scalar α] in
theorem declared_of_child {g : AreaGroup α} (tabled : tabled? declared areas name = some g)
    {c : String} (child : c ∈ g.children) : declared.find? name = some g := by
  rw [tabled?] at tabled
  split at tabled
  · exact tabled
  · obtain ⟨area, -, rfl⟩ := Option.map_eq_some_iff.mp tabled
    cases child

theorem fixed_or_unset (read : ConstraintSet.ofText source = .ok set) {g : AreaGroup α}
    (tabled : tabled? set.groups areas name = some g) :
    g.dimension = .unset ∨ ∃ s, g.dimension = .fixed s := by
  rw [tabled?] at tabled
  split at tabled
  · have gives := Constraint.gives_ofText read name g tabled
    cases size : g.dimension with
    | unset => exact .inl rfl
    | fixed s => exact .inr ⟨s, rfl⟩
    | options sizes =>
        replace gives : Constraint.Gives source name g.dimension := gives
        rw [size] at gives
        cases gives
  · obtain ⟨area, -, rfl⟩ := Option.map_eq_some_iff.mp tabled
    exact .inl rfl

/-- The areas that a parent sums are those that its children have in the end. -/
theorem areas_of_children (read : ConstraintSet.ofText source = .ok set) {p : Floorplan α}
    (groups : ∀ name, p.groups.find? name = (tabled? set.groups areas name).map fun g =>
      offerSizes settings.aspectRatios (sumChildren (assigned set areas) (assignArea areas g)))
    {g : AreaGroup α} (tabled : tabled? set.groups areas name = some g) :
    (∀ c ∈ g.children, (p.groups.find? c).isSome) ∧
      (g.children.filterMap (assigned set areas).find?).map (·.area) =
        (g.children.filterMap p.groups.find?).map (·.area) := by
  have same (c : String) (child : c ∈ g.children) :
      ∃ h, (assigned set areas).find? c = some (assignArea areas h) ∧
        p.groups.find? c = some (offerSizes settings.aspectRatios (assignArea areas h)) := by
    obtain ⟨h, inside, childless⟩ := childless_of_child read (declared_of_child tabled child) child
    refine ⟨h, ?_, ?_⟩
    · rw [assigned, NameMap.find?_mapValues, find?_withTableGroups, tabled?_of_declared inside]
      rfl
    · rw [groups, tabled?_of_declared inside, Option.map_some,
        sumChildren_of_no_children _ (by rw [assignArea_eq]; exact childless)]
  constructor
  · intro c child
    obtain ⟨h, -, final⟩ := same c child
    rw [final]
    rfl
  · rw [List.map_filterMap, List.map_filterMap]
    apply List.filterMap_congr
    intro c child
    obtain ⟨h, early, final⟩ := same c child
    rw [early, final, Option.map_some, Option.map_some, area_offerSizes]

/-! ### The program's own numbers -/

/-- What becomes of a group in an elaborated plan. Only the area and the size change. The area is
the own one unless that is not positive and there are children; sizes to choose from are offered if
the area is positive and the size is not fixed. An area that is no number counts as an area both
times. -/
structure Settles (areas : NameMap Binary64) (ratios : List Binary64) (p : Floorplan Binary64)
    (g g' : AreaGroup Binary64) : Prop where
  kept : g' = { g with area := g'.area, dimension := g'.dimension }
  children : ∀ c ∈ g.children, (p.groups.find? c).isSome
  area : g'.area =
    if g.children ≠ [] ∧ ¬ 0 < ownArea areas g ∧ (ownArea areas g).isNaN = false then
      Scalar.sum ((g.children.filterMap p.groups.find?).map (·.area))
    else ownArea areas g
  fixed : ∀ s, g.dimension = .fixed s → g'.dimension = .fixed s
  unset : (∀ s, g.dimension ≠ .fixed s) → g'.dimension =
    if 0 < g'.area ∨ g'.area.isNaN = true then .options (aspectOptions g'.area ratios) else .unset
  offered : 0 < g'.area ∨ g'.area.isNaN = true → aspectOptions g'.area ratios ≠ []

/-- **Areas go by precedence.** A file that declares a chip is elaborated with every table; the
groups are the declared ones and one for each entry that no declaration covers, and each of them
settles as told. -/
theorem elaborate_areas (source : String) (set : ConstraintSet Binary64) (areas : NameMap Binary64)
    (settings : PlacementSettings Binary64) (chip : Size Binary64)
    (read : ConstraintSet.ofText source = .ok set) (extent : set.chip = some chip)
    (ratios : settings.aspectRatios ≠ []) :
    ∃ p, elaborate set areas settings = .ok p ∧ p.chip = chip ∧
      ∀ name, Option.Rel (Settles areas settings.aspectRatios p)
        (tabled? set.groups areas name) (p.groups.find? name) := by
  obtain ⟨p, elaborated, same, groups⟩ := elaborate_eq areas settings extent
  refine ⟨p, elaborated, same, fun name => ?_⟩
  rw [groups]
  cases tabled : tabled? set.groups areas name with
  | none => exact .none
  | some g =>
      obtain ⟨present, summed⟩ := areas_of_children read groups tabled
      have offers {area : Binary64} (above : 0 < area ∨ area.isNaN = true) :
          aspectOptions area settings.aspectRatios ≠ [] := by
        refine aspectOptions_ne_nil ?_ ratios
        rwa [Binary64.nonpos_iff, not_and_or, not_not, Bool.not_eq_false]
      let area := if g.children ≠ [] ∧ ¬ 0 < ownArea areas g ∧ (ownArea areas g).isNaN = false then
        Scalar.sum ((g.children.filterMap p.groups.find?).map (·.area)) else ownArea areas g
      have grown : sumChildren (assigned set areas) (assignArea areas g) = { g with area } := by
        rw [assignArea_eq, sumChildren_eq]
        simp only [Binary64.nonpos_iff, summed, area]
      rw [Option.map_some, grown]
      refine .some ?_
      cases fixed_or_unset read tabled with
      | inl unset =>
          rw [offerSizes_of_unset (g := { g with area }) ratios unset]
          refine ⟨rfl, present, rfl, fun s fixed => ?_, fun _ => ?_, offers⟩
          · rw [unset] at fixed
            cases fixed
          · simp only [Binary64.nonpos_iff]
            by_cases above : 0 < area ∨ area.isNaN = true
            · rw [if_pos above, if_neg]
              rwa [not_and_or, not_not, Bool.not_eq_false]
            · rw [if_neg above, if_pos]
              rwa [not_or, Bool.not_eq_true] at above
      | inr fixed =>
          obtain ⟨s, fixed⟩ := fixed
          rw [offerSizes_of_fixed (g := { g with area }) settings.aspectRatios fixed]
          exact ⟨rfl, present, rfl, fun _ => id, fun free => absurd fixed (free s), offers⟩

/-- A parent without an area, its child by source path, and an entry that no declaration covers. -/
def areaSource : String :=
  "DIMENSION FPGA 100,100; AREAGROUP top = None; AREAGROUP core = \"cpu/core\"; core in top;"

def areaTable : NameMap Binary64 := .ofList [("cpu/core", 100.0), ("dma", 64.0)]

/-- One ratio. -/
def squareSettings : PlacementSettings Binary64 := { aspectRatios := [1] }

theorem elaborate_areas_core : ∃ (set : ConstraintSet Binary64) (chip : Size Binary64)
    (p : Floorplan Binary64), ConstraintSet.ofText areaSource = .ok set ∧ set.chip = some chip ∧
    squareSettings.aspectRatios ≠ [] ∧
    (elaborate set areaTable squareSettings = .ok p ∧ p.chip = chip ∧
      ∀ name, Option.Rel (Settles areaTable squareSettings.aspectRatios p)
        (tabled? set.groups areaTable name) (p.groups.find? name)) ∧
    ["core", "cpu/core", "dma", "top"].map (fun name => (p.groups.find? name).map (·.area)) =
      [some 100.0, none, some 64.0, some 100.0] := by
  have evaluated : (ConstraintSet.ofText areaSource).toOption.bind (fun set =>
      (elaborate set areaTable squareSettings).toOption.map fun p => (set.chip,
        ["core", "cpu/core", "dma", "top"].map fun name => (p.groups.find? name).map (·.area))) =
      some (some ⟨100.0, 100.0⟩, [some (100.0 : Binary64), none, some 64.0, some 100.0]) := by
    decide +kernel
  obtain ⟨set, read, evaluated⟩ := Option.bind_eq_some_iff.mp evaluated
  obtain ⟨p, elaborated, values⟩ := Option.map_eq_some_iff.mp evaluated
  rw [Prod.mk.injEq] at values
  have read := toOption_eq_some.mp read
  have elaborated := toOption_eq_some.mp elaborated
  have ratios : squareSettings.aspectRatios ≠ [] := List.cons_ne_nil _ _
  obtain ⟨q, same, settled⟩ :=
    elaborate_areas areaSource set areaTable squareSettings ⟨100.0, 100.0⟩ read values.1 ratios
  obtain rfl : p = q := Except.ok.inj (elaborated.symm.trans same)
  exact ⟨set, _, p, read, values.1, ratios, ⟨same, settled⟩, values.2⟩

/-- A parent whose area is no number. -/
def nanSource : String :=
  "DIMENSION FPGA 100,100; AREAGROUP top = None; RESOURCES top nan;
   AREAGROUP a = None; RESOURCES a 400; a in top;"

/-- An area that is no number is not positive, but the children are not summed for it, and sizes are
offered for it. -/
theorem nan_area_kept : ∃ (set : ConstraintSet Binary64) (p : Floorplan Binary64)
    (top top' a : AreaGroup Binary64), ConstraintSet.ofText nanSource = .ok set ∧
    elaborate set .empty squareSettings = .ok p ∧ set.groups.find? "top" = some top ∧
    p.groups.find? "top" = some top' ∧ p.groups.find? "a" = some a ∧
    (¬ 0 < ownArea .empty top ∧ top.children = ["a"] ∧ top'.area ≠ Scalar.sum [a.area]) ∧
    ¬ 0 < top'.area ∧ top'.dimension.choices ≠ [] := by
  have evaluated : ((ConstraintSet.ofText nanSource).toOption.bind fun set =>
      (elaborate set .empty squareSettings).toOption.bind fun p =>
        (set.groups.find? "top").bind fun top => (p.groups.find? "top").bind fun top' =>
          (p.groups.find? "a").map fun a =>
            decide ((¬ 0 < ownArea .empty top ∧ top.children = ["a"] ∧
              top'.area ≠ Scalar.sum [a.area]) ∧
              ¬ 0 < top'.area) && !top'.dimension.choices.isEmpty) = some true := by decide +kernel
  obtain ⟨set, read, evaluated⟩ := Option.bind_eq_some_iff.mp evaluated
  obtain ⟨p, elaborated, evaluated⟩ := Option.bind_eq_some_iff.mp evaluated
  obtain ⟨top, before, evaluated⟩ := Option.bind_eq_some_iff.mp evaluated
  obtain ⟨top', after, evaluated⟩ := Option.bind_eq_some_iff.mp evaluated
  obtain ⟨a, child, values⟩ := Option.map_eq_some_iff.mp evaluated
  rw [Bool.and_eq_true, decide_eq_true_eq, Bool.not_eq_true', List.isEmpty_eq_false_iff] at values
  exact ⟨set, p, top, top', a, toOption_eq_some.mp read, toOption_eq_some.mp elaborated,
    before, after, child, values.1.1, values.1.2, values.2⟩

end Floorplan
end HardwareLinker
