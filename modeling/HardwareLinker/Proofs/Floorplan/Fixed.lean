import HardwareLinker.Proofs.Floorplan.Elaboration
import HardwareLinker.Proofs.Floorplan.Nesting

/-!
What a constraint file fixes. From elaboration to the solver every step but one keeps a fixed centre
and a fixed size, also where only one of the two is fixed: a rule replaces both, unless both are
fixed.
-/

namespace HardwareLinker

/-- The group has the coordinates that are fixed, but for half a millionth, and the size if that is
fixed. -/
structure AreaGroup.Keeps (g h : AreaGroup Rat) : Prop where
  x : ∀ x, g.x = some x → ∃ x', h.x = some x' ∧ |x' - x| ≤ halfStep
  y : ∀ y, g.y = some y → ∃ y', h.y = some y' ∧ |y' - y| ≤ halfStep
  size : ∀ s, g.dimension = .fixed s → h.dimension = .fixed s

namespace AreaGroup

variable {g g' h : AreaGroup Rat}

theorem Keeps.refl (g : AreaGroup Rat) : g.Keeps g := by
  have still (x : Rat) : |x - x| ≤ halfStep := by
    rw [sub_self, abs_zero]
    exact halfStep_nonneg
  exact ⟨fun x hx => ⟨x, hx, still x⟩, fun y hy => ⟨y, hy, still y⟩, fun _ => id⟩

theorem Elaborated.keeps (elaborated : g.Elaborated g') (keeps : g'.Keeps h) : g.Keeps h where
  x x hx := keeps.x x (elaborated.x.trans hx)
  y y hy := keeps.y y (elaborated.y.trans hy)
  size s hs := keeps.size s (elaborated.size s hs)

end AreaGroup

namespace Floorplan

open Milp

/-- A pick keeps what is fixed, and so does what is read back of it. -/
theorem Pick.keeps_rounded {c : Pick} (suits : c.Suits) : c.group.Keeps c.rounded.placed := by
  obtain ⟨s, hs, -⟩ := suits.size
  rw [placed_rounded hs]
  constructor
  case x =>
    intro x hx
    exact ⟨_, rfl, suits.x x hx ▸ BatchModel.abs_snap_sub_le c.x⟩
  case y =>
    intro y hy
    exact ⟨_, rfl, suits.y y hy ▸ BatchModel.abs_snap_sub_le c.y⟩
  case size =>
    intro fixed hfixed
    -- the fixed size is the only candidate
    have mem := List.mem_of_getElem? hs
    rw [hfixed] at mem
    rw [← List.mem_singleton.mp mem]
    rfl

theorem keeps_of_settled {p : Floorplan Rat} {picks : List Pick} {name : String} {g : AreaGroup Rat}
    (settled : Settled p picks) (found : p.groups.find? name = some g) :
    ∃ h, (p.withPicks picks).groups.find? name = some h ∧ g.Keeps h ∧
      (g.isPlaced = true → h = g) := by
  by_cases picked : name ∈ picks.map (·.group.name)
  · obtain ⟨c, hc, rfl⟩ := List.mem_map.mp picked
    obtain rfl := Option.some.inj ((settled.found c hc).symm.trans found)
    refine ⟨_, NameMap.find?_eq_some.mpr (settled.mem_placed hc),
      c.keeps_rounded (settled.suits c hc), fun placed => ?_⟩
    rw [settled.free c hc] at placed
    cases placed
  · have kept := mem_withPicks_of_not_picked (NameMap.find?_eq_some.mp found) picked
    exact ⟨g, NameMap.find?_eq_some.mpr kept, .refl g, fun _ => rfl⟩

/-- **What the file fixes is kept**, unless a rule takes a group of which not both the centre and
the size are fixed: with a solver that answers only what the model admits, a plan that is handed out
has every other declared group with the coordinates that the file fixes, but for half a millionth,
and with the size that it fixes; where both are fixed, the centre is the one of the file. -/
theorem Run.solve_keeps_fixed (r : Run Rat) (source : String) (set : ConstraintSet Rat)
    (areas : NameMap Rat) (p q : Floorplan Rat) (exact : r.Exact)
    (read : ConstraintSet.ofText source = .ok set)
    (elaborated : elaborate set areas r.settings = .ok p) (solved : r.solve p none = .ok q)
    (name : String) (g : AreaGroup Rat) (declared : set.groups.find? name = some g)
    (unruled : name ∉ (applyRules p r.settings.rules).1 ∨ g.isPlaced = true) :
    ∃ h, q.groups.find? name = some h ∧ g.Keeps h ∧
      (g.isPlaced = true → h.x = g.x ∧ h.y = g.y) := by
  obtain ⟨keyed, kept⟩ := elaborate_spec (ConstraintSet.keyed_ofText read) elaborated
  obtain ⟨g', found, same⟩ := kept name g declared
  have ruled := applyRules_ruled keyed r.settings.rules
  obtain ⟨picks, settled, rfl⟩ := solve_settled exact (keyed.base r none) solved
  have free : name ∉ (applyRules p r.settings.rules).1 := by
    refine unruled.elim id fun placed mem => ?_
    have unplaced := ruled.free name mem g' found
    rw [same.isPlaced placed] at unplaced
    cases unplaced
  obtain ⟨h, found, keeps, still⟩ := keeps_of_settled settled ((ruled.kept name free).trans found)
  refine ⟨h, found, same.keeps keeps, fun placed => ?_⟩
  rw [still (same.isPlaced placed)]
  exact ⟨same.x, same.y⟩

/-! ### A file with fixed centres and sizes -/

/-- A placed group, one with a fixed centre, and one with a fixed size. -/
def fixedSource : String :=
  "DIMENSION FPGA 100,100; AREAGROUP dram = None; LOCATION dram 90,50; DIMENSION dram 20,100;
   AREAGROUP user = None; LOCATION user 30,50; RESOURCES user 1000;
   AREAGROUP cache = None; DIMENSION cache 20,50; RESOURCES cache 1000;"

def centredGroup : AreaGroup Rat :=
  { name := "user", area := 1000, x := some 30, y := some 50 }

def sizedGroup : AreaGroup Rat :=
  { name := "cache", area := 1000, dimension := .fixed ⟨20, 50⟩ }

def fixedPlan : Floorplan Rat :=
  { chip := ⟨100, 100⟩
    groups := .ofList
      [("cache", sizedGroup),
       ("dram",
        { name := "dram", area := 0, x := some 90, y := some 50,
          dimension := .fixed ⟨20, 100⟩ }),
       ("user", { centredGroup with dimension := .options [⟨32, 32⟩] })] }

/-- The two groups side by side, and left of the placed one. -/
def fixedAnswers : List (Assignment Rat) :=
  [#[1, 181 / 3, 25, 0, 0], #[1, 30, 50, 0, 0, 0, 0]]

def fixedRun (rules : List PlacementRule) : Run Rat :=
  { vetting fixedAnswers with settings := { aspectRatios := [1], rules } }

theorem fixedRun_exact (rules : List PlacementRule) : (fixedRun rules).Exact :=
  vetting_exact fixedAnswers

theorem fixedSource_elaborated (rules : List PlacementRule) : ∃ set,
    ConstraintSet.ofText fixedSource = .ok set ∧
      elaborate set .empty (fixedRun rules).settings = .ok fixedPlan ∧
      set.groups.find? "user" = some centredGroup ∧ set.groups.find? "cache" = some sizedGroup := by
  have evaluated : ((ConstraintSet.ofText fixedSource).toOption.bind fun set =>
      (elaborate set .empty (fixedRun []).settings).toOption.map fun p =>
        (p, set.groups.find? "user", set.groups.find? "cache")) =
      some (fixedPlan, some centredGroup, some sizedGroup) := by decide +kernel
  obtain ⟨set, read, elaborated⟩ := Option.bind_eq_some_iff.mp evaluated
  obtain ⟨p, elaborated, same⟩ := Option.map_eq_some_iff.mp elaborated
  obtain ⟨rfl, groups⟩ := Prod.mk.inj same
  exact ⟨set, toOption_eq_some.mp read, toOption_eq_some.mp elaborated, Prod.mk.inj groups⟩

/-- The plan as the solver completes it. -/
def fixedPlaced : Floorplan Rat :=
  { fixedPlan with
    groups :=
      (fixedPlan.groups.insert "cache" (sizedGroup.place (60333333 / 1000000) 25 ⟨20, 50⟩)).insert
      "user" (centredGroup.place 30 50 ⟨32, 32⟩) }

theorem fixedPlan_placed : (fixedRun []).solve fixedPlan none = .ok fixedPlaced := by
  have order : solveOrder fixedPlan = ["cache", "user"] :=
    (solveOrder_of_pairwise (by decide +kernel)).trans (by decide +kernel)
  have batches : chunks 1 ["cache", "user"] = [["cache"], ["user"]] := by simp [chunks]
  refine solve_of_placeBatches order (by decide) rfl ?_
  rw [batches, ← toOption_eq_some]
  decide +kernel

/-- The group with a fixed size keeps it where no rule takes the group. -/
theorem Run.solve_keeps_fixed_size : (fixedRun []).Exact ∧ ∃ set,
    ConstraintSet.ofText fixedSource = .ok set ∧
    elaborate set .empty (fixedRun []).settings = .ok fixedPlan ∧
    (fixedRun []).solve fixedPlan none = .ok fixedPlaced ∧
    set.groups.find? "cache" = some sizedGroup ∧ "cache" ∉ (applyRules fixedPlan []).1 ∧
    ∃ h, fixedPlaced.groups.find? "cache" = some h ∧ sizedGroup.Keeps h := by
  obtain ⟨set, read, elaborated, -, declared⟩ := fixedSource_elaborated []
  have unruled : "cache" ∉ (applyRules fixedPlan []).1 := List.not_mem_nil
  obtain ⟨h, found, keeps, -⟩ := solve_keeps_fixed _ fixedSource set .empty fixedPlan fixedPlaced
    (fixedRun_exact []) read elaborated fixedPlan_placed "cache" sizedGroup declared (.inl unruled)
  exact ⟨fixedRun_exact [], set, read, elaborated, fixedPlan_placed, declared, unruled,
    h, found, keeps⟩

/-- One rule for each of the groups of which the file fixes a part. -/
def sideBySide : List PlacementRule := [⟨"user", "dram", .left⟩, ⟨"cache", "user", .left⟩]

/-- Rules move a group away from the centre that the file fixes, and give a group another size than
the file fixes. -/
theorem ruled_over_fixed : (fixedRun sideBySide).Exact ∧ ∃ set q h k,
    ConstraintSet.ofText fixedSource = .ok set ∧
    elaborate set .empty (fixedRun sideBySide).settings = .ok fixedPlan ∧
    (fixedRun sideBySide).solve fixedPlan none = .ok q ∧
    set.groups.find? "user" = some centredGroup ∧ q.groups.find? "user" = some h ∧ h.x = some 75 ∧
    set.groups.find? "cache" = some sizedGroup ∧ q.groups.find? "cache" = some k ∧
    k.dimension = .fixed ⟨10, 100⟩ := by
  obtain ⟨set, read, elaborated, centred, sized⟩ := fixedSource_elaborated sideBySide
  have solved : (fixedRun sideBySide).solve fixedPlan none =
      .ok ((fixedRun sideBySide).base fixedPlan none) := solve_of_placed (by decide +kernel)
  have user : ((fixedRun sideBySide).base fixedPlan none).groups.find? "user" =
      some (centredGroup.place 75 50 ⟨10, 100⟩) := by decide +kernel
  have cache : ((fixedRun sideBySide).base fixedPlan none).groups.find? "cache" =
      some (sizedGroup.place 65 50 ⟨10, 100⟩) := by decide +kernel
  exact ⟨fixedRun_exact sideBySide, set, _, _, _, read, elaborated, solved,
    centred, user, rfl, sized, cache, rfl⟩

end Floorplan
end HardwareLinker
