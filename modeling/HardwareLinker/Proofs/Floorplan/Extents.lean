import HardwareLinker.Proofs.Binary64
import HardwareLinker.Proofs.Floorplan.Chosen
import HardwareLinker.Proofs.Floorplan.Fixed
import HardwareLinker.Proofs.Floorplan.Sizes

/-!
Positive extents, and areas that are covered, whatever the solver answers. Each way to a size has a
guard of its own: corners are compared, what the solver selects is looked at when it is read and
once more with the bounds computed from it, and the extents that a rule computes are positive where
its anchor is proper. Over exact numbers a size that the file states for a group with a centre is
the only one that passes none of them. Over binary64 two more get by: corners that are no number
pass the comparison, and an area so small that its quotient by the side of the anchor is zero gives
a rule an extent of zero. What is proved of binary64 here is about the sizes that the solver
selects.
-/

namespace HardwareLinker

/-- Positive extents. -/
def Size.Proper {α : Type} [Scalar α] (s : Size α) : Prop := 0 < s.width ∧ 0 < s.height

instance {α : Type} [Scalar α] (s : Size α) : Decidable s.Proper :=
  inferInstanceAs (Decidable (_ ∧ _))

/-- An extent that is not at most zero is positive, if a bound computed from it compares with
anything. -/
class Scalar.Bounding (α : Type) [Scalar α] : Prop where
  pos_of_bound : ∀ extent centre edge : α, ¬ extent ≤ 0 → edge ≤ centre - extent / 2.0 → 0 < extent

instance : Scalar.Bounding Rat where
  pos_of_bound _ _ _ positive _ := Rat.not_le.mp positive

instance : Scalar.Bounding Binary64 where
  pos_of_bound extent centre edge positive bound := by
    cases none : extent.isNaN with
    | false => exact Binary64.pos_of_not_nonpos none positive
    | true =>
        have noBound : (centre - extent / 2.0).isNaN = true :=
          Binary64.isNaN_combine_right (Binary64.isNaN_combine_left none)
        exact absurd bound (Binary64.not_le_of_isNaN noBound)

namespace AreaGroup

variable {g h : AreaGroup Rat}

/-- A placed group has positive extents. -/
def PlacedProper (g : AreaGroup Rat) : Prop :=
  g.isPlaced = true → ∀ s, g.dimension = .fixed s → s.Proper

theorem PlacedProper.bounds (proper : g.PlacedProper) {b : Bounds Rat} (seen : g.bounds? = some b) :
    b.Proper := by
  obtain ⟨x, y, s, -, -, size, rfl⟩ := exists_of_bounds? seen
  obtain ⟨wide, high⟩ := proper (isPlaced_iff.mpr ⟨_, seen⟩) s size
  constructor
  · change x - s.width / 2 < x + s.width / 2
    linarith
  · change y - s.height / 2 < y + s.height / 2
    linarith

/-- The group as it was, or a free one that a rule has put beside an anchor. -/
inductive Fitted (g : AreaGroup Rat) : AreaGroup Rat → Prop where
  | kept : Fitted g g
  | put (x y : Rat) {s : Size Rat} (free : g.isPlaced = false) (proper : s.Proper)
      (covers : g.area ≤ s.width * s.height) : Fitted g (g.place x y s)

theorem Fitted.placedProper (fitted : g.Fitted h) (proper : g.PlacedProper) : h.PlacedProper := by
  cases fitted with
  | kept => exact proper
  | put x y free properSize =>
      rintro - s same
      cases same
      exact properSize

/-- The group with the size it ends with: it was placed before, or gets a proper size, one of its
own or one that covers its area. -/
inductive Sized (g : AreaGroup Rat) : AreaGroup Rat → Prop where
  | placed (placed : g.isPlaced = true) : Sized g g
  | offered (x y : Rat) {s : Size Rat} (free : g.isPlaced = false) (proper : s.Proper)
      (offered : s ∈ g.dimension.choices) : Sized g (g.place x y s)
  | ruled (x y : Rat) {s : Size Rat} (free : g.isPlaced = false) (proper : s.Proper)
      (covers : g.area ≤ s.width * s.height) : Sized g (g.place x y s)

end AreaGroup

namespace Floorplan

variable {p q : Floorplan Rat} {r : Run Rat}

/-! ### Rounding up -/

theorem le_ceil_div_mul {area extent : Rat} (positive : 0 < extent) :
    area ≤ Scalar.ceil (area / extent) * extent :=
  (div_le_iff₀ positive).mp Rat.le_ceil

theorem ceil_div_pos {area extent : Rat} (harea : 0 < area) (hextent : 0 < extent) :
    0 < Scalar.ceil (area / extent) :=
  (div_pos harea hextent).trans_le Rat.le_ceil

theorem area_le_aspectOption {area ratio : Rat} (wide : 0 < (aspectOption area ratio).width) :
    area ≤ (aspectOption area ratio).width * (aspectOption area ratio).height := by
  rw [mul_comm]
  exact le_ceil_div_mul wide

/-- A neighbour shares one extent with its anchor; the other one makes up for its area. -/
theorem besideAnchor_size {b : Bounds Rat} {area : Rat} (proper : b.Proper) (positive : 0 < area)
    (side : Side) : (besideAnchor b area side).2.2.Proper ∧
      area ≤ (besideAnchor b area side).2.2.width * (besideAnchor b area side).2.2.height := by
  have width : 0 < b.right - b.left := sub_pos.mpr proper.1
  have height : 0 < b.top - b.bottom := sub_pos.mpr proper.2
  cases side with
  | left | right => exact ⟨⟨ceil_div_pos positive height, height⟩, le_ceil_div_mul height⟩
  | above | below =>
      refine ⟨⟨width, ceil_div_pos positive width⟩, ?_⟩
      rw [mul_comm]
      exact le_ceil_div_mul width

/-! ### Rules and batches -/

theorem Keyed.applyRules_fitted (keyed : p.Keyed) (proper : p.groups.Each fun _ g => g.PlacedProper)
    (rules : List PlacementRule) :
    NameMap.Related AreaGroup.Fitted p.groups (applyRules p rules).2.groups := by
  refine applyRules_related keyed (fun _ => .kept) ?_ ?_ rules
  · intro g h fitted free
    cases fitted with
    | kept => rfl
    | put => cases free
  · intro name g₀ anchor bounds found fitted seen g side free positive
    have properBounds := (fitted.placedProper (proper name g₀ found)).bounds seen
    obtain ⟨properSize, covers⟩ := besideAnchor_size properBounds (not_le.mp positive) side
    exact .put _ _ free properSize covers

/-- Where placed groups are proper, a run without an earlier one gives every other group a proper
size, one of its own or one that covers its area. -/
theorem Keyed.solve_sized (keyed : p.Keyed) (proper : p.groups.Each fun _ g => g.PlacedProper)
    (solved : r.solve p none = .ok q) : NameMap.Related AreaGroup.Sized p.groups q.groups := by
  have fitted := keyed.applyRules_fitted proper r.settings.rules
  have completes := keyed.solve_completes solved
  have complete := isPlaced_of_solve solved
  intro name
  cases before : p.groups.find? name with
  | none =>
      cases after : q.groups.find? name with
      | none => exact .none
      | some h =>
          obtain ⟨k, between, -⟩ := completes.groups.origin after
          obtain ⟨g, found, -⟩ := fitted.origin between
          rw [found] at before
          cases before
  | some g =>
      obtain ⟨k, between, fitted⟩ := fitted.image before
      obtain ⟨h, after, chosen⟩ := completes.groups.image between
      rw [after]
      refine .some ?_
      cases chosen with
      | kept =>
          cases fitted with
          | kept =>
              exact .placed (complete g (NameMap.mem_values_iff.mpr ⟨_, after⟩))
          | put x y free proper covers => exact .ruled x y free proper covers
      | put x y free offered wide high =>
          cases fitted with
          | kept => exact .offered x y free ⟨not_le.mp wide, not_le.mp high⟩ offered
          | put => cases free

/-! ### From a file to a plan -/

variable {source : String} {set : ConstraintSet Rat} {areas : NameMap Rat}
  {settings : PlacementSettings Rat}

/-- Every size that the file states for a group with a centre is proper. -/
def StatesProper (source : String) (set : ConstraintSet Rat) : Prop :=
  ∀ name g s, set.groups.find? name = some g → g.isPlaced = true → g.dimension = .fixed s →
    Constraint.States source (.size name s) → s.Proper

theorem placedProper_of_states (read : ConstraintSet.ofText source = .ok set)
    (elaborated : elaborate set areas settings = .ok p) (states : StatesProper source set) :
    p.groups.Each fun _ g => g.PlacedProper := by
  intro name g found placed s size
  cases elaborate_sizes read elaborated name g found with
  | fixed g₀ s₀ declared size₀ same x y =>
      obtain rfl := Dimension.fixed.inj (size.symm.trans same)
      have placed₀ : g₀.isPlaced = true := by
        rwa [AreaGroup.isPlaced, ← x, ← y, size₀, ← same]
      have gives : Constraint.Gives source name g₀.dimension :=
        Constraint.gives_ofText read name g₀ declared
      rw [size₀] at gives
      cases gives with
      | stated stated => exact states name g₀ s declared placed₀ size₀ stated
      | between p q right above =>
          exact ⟨sub_pos.mpr (not_le.mp right), sub_pos.mpr (not_le.mp above)⟩
  | unset none =>
      rw [none] at size
      cases size
  | offered sizes =>
      rw [sizes] at size
      cases size

/-- What the solver has put on the chip is proper. -/
theorem proper_of_contains {α : Type} [Scalar α] [Scalar.Bounding α] {p : Floorplan α}
    {g : AreaGroup α} {x y : α} {s : Size α} (wide : ¬ s.width ≤ 0) (high : ¬ s.height ≤ 0)
    (inside : p.contains (g.place x y s) = true) : s.Proper := by
  change boundsInside p.chip ⟨x - s.width / 2.0, y - s.height / 2.0, x + s.width / 2.0,
    y + s.height / 2.0⟩ = true at inside
  simp only [boundsInside, Bool.and_eq_true, decide_eq_true_eq] at inside
  obtain ⟨⟨⟨left, bottom⟩, -⟩, -⟩ := inside
  exact ⟨Scalar.Bounding.pos_of_bound _ _ _ wide left,
    Scalar.Bounding.pos_of_bound _ _ _ high bottom⟩

/-- Each group is one that the file and the rules have placed, or it has a proper size. -/
theorem Keyed.solve_proper {α : Type} [Scalar α] [Scalar.Bounding α] {r : Run α} {p q : Floorplan α}
    (keyed : p.Keyed) (solved : r.solve p none = .ok q) : q.groups.Each fun name h =>
      (r.base p none).groups.find? name = some h ∨ ∃ s, h.dimension = .fixed s ∧ s.Proper := by
  intro name h after
  obtain ⟨g, between, chosen⟩ := (keyed.solve_completes solved).groups.origin after
  cases chosen with
  | kept => exact .inl between
  | put x y free offered wide high =>
      have checked := verify_eq_ok.mp
        (solve_of_free solved ⟨g, NameMap.mem_values_iff.mpr ⟨_, between⟩, free⟩)
      have inside := checked.inside _ (NameMap.mem_values_iff.mpr ⟨_, after⟩)
      exact .inr ⟨_, rfl, proper_of_contains wide high inside⟩

/-- Over exact numbers the sizes that the file states for groups with a centre decide. -/
theorem solve_proper_iff_states (read : ConstraintSet.ofText source = .ok set)
    (elaborated : elaborate set areas r.settings = .ok p) (solved : r.solve p none = .ok q) :
    (∀ name h, q.groups.find? name = some h → ∃ s, h.dimension = .fixed s ∧ s.Proper) ↔
      StatesProper source set := by
  obtain ⟨keyed, kept⟩ := elaborate_spec (ConstraintSet.keyed_ofText read) elaborated
  constructor
  · intro proper name g s declared placed size _
    obtain ⟨g', found, same⟩ := kept name g declared
    have handedOut := keyed.find?_solve_of_placed solved found (same.isPlaced placed)
    obtain ⟨s', size', properSize⟩ := proper name g' handedOut
    obtain rfl := Dimension.fixed.inj ((same.size s size).symm.trans size')
    exact properSize
  · intro states name h after
    have proper := placedProper_of_states read elaborated states
    obtain ⟨g, found, sized⟩ := (keyed.solve_sized proper solved).origin after
    cases sized with
    | placed placed =>
        obtain ⟨s, size⟩ := AreaGroup.exists_fixed placed
        exact ⟨s, size, proper name h found placed s size⟩
    | offered x y free properSize => exact ⟨_, rfl, properSize⟩
    | ruled x y free properSize => exact ⟨_, rfl, properSize⟩

/-- **Over exact numbers no rectangle is degenerate unless the file states it so.** Whatever the
solver answers, and rounded or not, each group of a plan that is handed out has positive extents, or
is left as the file and the rules have placed it. Over exact numbers all groups have positive
extents just if every size is positive that the file states for a group with a centre; corners,
sizes to choose from and rules never give any other. -/
theorem Run.solve_proper_iff (source : String) :
    (∀ (α : Type) [Scalar α] [Scalar.Bounding α] (r : Run α) (set : ConstraintSet α)
      (areas : NameMap α) (p q : Floorplan α), ConstraintSet.ofText source = .ok set →
      elaborate set areas r.settings = .ok p → r.solve p none = .ok q →
      ∀ name h, q.groups.find? name = some h → (r.base p none).groups.find? name = some h ∨
        ∃ s, h.dimension = .fixed s ∧ 0 < s.width ∧ 0 < s.height) ∧
    ∀ (r : Run Rat) (set : ConstraintSet Rat) (areas : NameMap Rat) (p q : Floorplan Rat),
      ConstraintSet.ofText source = .ok set → elaborate set areas r.settings = .ok p →
      r.solve p none = .ok q →
      ((∀ name h, q.groups.find? name = some h →
        ∃ s, h.dimension = .fixed s ∧ 0 < s.width ∧ 0 < s.height) ↔ StatesProper source set) := by
  constructor
  · intro α _ _ r set areas p q read elaborated solved
    exact (elaborate_spec (ConstraintSet.keyed_ofText read) elaborated).1.solve_proper solved
  · intro r set areas p q read elaborated solved
    exact solve_proper_iff_states read elaborated solved

theorem fixedPlaced_proper : ∀ name h, fixedPlaced.groups.find? name = some h →
    ∃ s, h.dimension = .fixed s ∧ 0 < s.width ∧ 0 < s.height := by
  have entries : ∀ e ∈ fixedPlaced.groups.entries,
      e.2.dimension.fixed?.any (fun s => decide s.Proper) = true := by decide +kernel
  intro name h found
  obtain ⟨s, size, proper⟩ :=
    (Option.any_eq_true ..).mp (entries _ (NameMap.find?_eq_some.mp found))
  exact ⟨s, Dimension.fixed?_eq_some.mp size, of_decide_eq_true proper⟩

/-- The solver places two groups; every size is positive that the file states for a group with a
centre. -/
theorem Run.solve_proper_fixed : ∃ set, ConstraintSet.ofText fixedSource = .ok set ∧
    elaborate set .empty (fixedRun []).settings = .ok fixedPlan ∧
    (fixedRun []).solve fixedPlan none = .ok fixedPlaced ∧
    (∀ name h, fixedPlaced.groups.find? name = some h →
      ((fixedRun []).base fixedPlan none).groups.find? name = some h ∨
        ∃ s, h.dimension = .fixed s ∧ 0 < s.width ∧ 0 < s.height) ∧
    StatesProper fixedSource set := by
  obtain ⟨set, read, elaborated, -⟩ := fixedSource_elaborated []
  obtain ⟨chosen, exact⟩ := solve_proper_iff fixedSource
  exact ⟨set, read, elaborated, fixedPlan_placed,
    chosen Rat _ set .empty fixedPlan fixedPlaced read elaborated fixedPlan_placed,
    (exact _ set .empty fixedPlan fixedPlaced read elaborated fixedPlan_placed).mp
      fixedPlaced_proper⟩

/-- A group with a centre and a negative width. -/
def flippedSource : String :=
  "DIMENSION FPGA 100,100; AREAGROUP a = None; LOCATION a 50,50; DIMENSION a -20,20;"

def flippedGroup : AreaGroup Rat :=
  { name := "a", area := 0, x := some 50, y := some 50, dimension := .fixed ⟨-20, 20⟩ }

def flippedPlan : Floorplan Rat := ⟨⟨100, 100⟩, .ofList [("a", flippedGroup)]⟩

/-- A negative width that the file states is handed out. -/
theorem flipped_handed_out : ∃ set, ConstraintSet.ofText flippedSource = .ok set ∧
    elaborate set .empty (fixedRun []).settings = .ok flippedPlan ∧
    (fixedRun []).solve flippedPlan none = .ok flippedPlan ∧
    flippedPlan.groups.find? "a" = some flippedGroup ∧
    flippedGroup.dimension = .fixed ⟨-20, 20⟩ := by
  have evaluated : ((ConstraintSet.ofText flippedSource).toOption.bind fun set =>
      (elaborate set .empty (fixedRun []).settings).toOption) =
        some flippedPlan := by decide +kernel
  obtain ⟨set, read, elaborated⟩ := Option.bind_eq_some_iff.mp evaluated
  have solved : (fixedRun []).solve flippedPlan none = .ok ((fixedRun []).base flippedPlan none) :=
    solve_of_placed (by decide +kernel)
  exact ⟨set, toOption_eq_some.mp read, toOption_eq_some.mp elaborated, solved,
    by decide +kernel, rfl⟩

/-- **Areas are covered.** If the sizes that the file fixes are positive, every group whose size it
leaves open ends with a size that holds its area, whether the solver chooses the size or a rule
computes it. -/
theorem Run.solve_covers_areas (r : Run Rat) (source : String) (set : ConstraintSet Rat)
    (areas : NameMap Rat) (p q : Floorplan Rat) (read : ConstraintSet.ofText source = .ok set)
    (positive : ∀ name g s, set.groups.find? name = some g → g.dimension = .fixed s →
      0 < s.width ∧ 0 < s.height)
    (elaborated : elaborate set areas r.settings = .ok p) (solved : r.solve p none = .ok q)
    (name : String) (g : AreaGroup Rat) (found : p.groups.find? name = some g)
    (left : ∀ g₀ s, set.groups.find? name = some g₀ → g₀.dimension ≠ .fixed s) :
    ∃ h s, q.groups.find? name = some h ∧ h.dimension = .fixed s ∧ g.area ≤ s.width * s.height := by
  obtain ⟨keyed, -⟩ := elaborate_spec (ConstraintSet.keyed_ofText read) elaborated
  have proper := placedProper_of_states read elaborated
    fun name g s declared _ size _ => positive name g s declared size
  have source := elaborate_sizes read elaborated name g found
  have unsized : ∀ s, g.dimension ≠ .fixed s := by
    intro s size
    cases source with
    | fixed g₀ s₀ declared size₀ => exact left g₀ s₀ declared size₀
    | unset none =>
        rw [none] at size
        cases size
    | offered sizes =>
        rw [sizes] at size
        cases size
  obtain ⟨h, after, sized⟩ := (keyed.solve_sized proper solved).image found
  refine ⟨h, ?_⟩
  cases sized with
  | placed placed =>
      obtain ⟨s, size⟩ := AreaGroup.exists_fixed placed
      exact absurd size (unsized s)
  | ruled x y free properSize covers => exact ⟨_, after, rfl, covers⟩
  | offered x y free properSize offered =>
      obtain ⟨-, ratio, -, rfl⟩ := mem_aspectOptions (source.mem_aspectOptions unsized offered)
      exact ⟨_, after, rfl, area_le_aspectOption properSize.1⟩

/-- A rule computes the size of a group of which the file fixes the centre only. -/
theorem Run.solve_covers_ruled : ∃ set q g,
    ConstraintSet.ofText fixedSource = .ok set ∧
    (∀ name g s, set.groups.find? name = some g → g.dimension = .fixed s →
      0 < s.width ∧ 0 < s.height) ∧
    elaborate set .empty (fixedRun sideBySide).settings = .ok fixedPlan ∧
    (fixedRun sideBySide).solve fixedPlan none = .ok q ∧
    fixedPlan.groups.find? "user" = some g ∧ g.area = 1000 ∧
    (∀ g₀ s, set.groups.find? "user" = some g₀ → g₀.dimension ≠ .fixed s) ∧
    ∃ h s, q.groups.find? "user" = some h ∧ h.dimension = .fixed s ∧ 1000 ≤ s.width * s.height := by
  obtain ⟨set, read, elaborated, centred, -⟩ := fixedSource_elaborated sideBySide
  have solved : (fixedRun sideBySide).solve fixedPlan none =
      .ok ((fixedRun sideBySide).base fixedPlan none) := solve_of_placed (by decide +kernel)
  have positive : ∀ name g s, set.groups.find? name = some g → g.dimension = .fixed s →
      0 < s.width ∧ 0 < s.height := by
    have entries : ∀ e ∈ fixedPlan.groups.entries,
        e.2.dimension.fixed?.all (fun s => decide s.Proper) = true := by decide +kernel
    intro name g s declared size
    obtain ⟨g', found, same⟩ :=
      (elaborate_spec (ConstraintSet.keyed_ofText read) elaborated).2 name g declared
    have proper := entries _ (NameMap.find?_eq_some.mp found)
    rw [Dimension.fixed?_eq_some.mpr (same.size s size)] at proper
    exact of_decide_eq_true proper
  have left : ∀ g₀ s, set.groups.find? "user" = some g₀ → g₀.dimension ≠ .fixed s := by
    intro g₀ s declared size
    obtain rfl := Option.some.inj (centred.symm.trans declared)
    cases size
  have found : fixedPlan.groups.find? "user" =
      some { centredGroup with dimension := .options [⟨32, 32⟩] } := by decide +kernel
  exact ⟨set, _, _, read, positive, elaborated, solved, found, rfl, left,
    solve_covers_areas _ fixedSource set .empty fixedPlan _ read positive elaborated solved
      "user" _ found left⟩

end Floorplan
end HardwareLinker
