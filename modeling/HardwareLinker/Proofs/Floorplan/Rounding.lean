import HardwareLinker.Proofs.Floorplan.Check
import HardwareLinker.Proofs.Floorplan.Relate

/-!
Rounding the centres of groups. A centre moves by half a millionth at most, and the size stays. The
final check overlooks a millionth, which is just what two rounded groups can lose against each
other: groups that fit exactly still pass it once they are rounded.
-/

namespace HardwareLinker

theorem Scalar.abs_roundRat_sub_le (x : Rat) : |roundRat x - x| ≤ 1 / 2 := by
  unfold roundRat
  split
  · have low : ((x + 1 / 2).floor : Rat) ≤ x + 1 / 2 := Rat.floor_le _
    have high : x + 1 / 2 < ((x + 1 / 2).floor + 1 : Int) := Rat.lt_floor_add_one _
    push_cast at high
    rw [abs_le]
    constructor <;> linarith
  · have low : x - 1 / 2 ≤ (x - 1 / 2).ceil := Rat.le_ceil
    have high : ((x - 1 / 2).ceil : Rat) < x - 1 / 2 + 1 := Rat.ceil_lt
    rw [abs_le]
    constructor <;> linarith

/-- The greatest distance that rounding moves a coordinate. -/
def halfStep : Rat := 1 / 2000000

theorem geometryTolerance_eq : (geometryTolerance : Rat) = 2 * halfStep := by
  norm_num [geometryTolerance, halfStep]

theorem halfStep_nonneg : 0 ≤ halfStep := by norm_num [halfStep]

namespace Floorplan

theorem BatchModel.abs_snap_sub_le (v : Rat) : |snap v - v| ≤ halfStep := by
  have rounded := Scalar.abs_roundRat_sub_le (v * 1e6)
  have snapped : snap v = Scalar.roundRat (v * 1e6) / 1e6 := rfl
  rw [abs_le] at rounded ⊢
  norm_num [snapped, halfStep] at rounded ⊢
  constructor <;> linarith

end Floorplan

/-! ### Rectangles -/

namespace Bounds

/-- Every side of a rectangle has moved by half a millionth at most. -/
structure Near (r r' : Bounds Rat) : Prop where
  left : |r'.left - r.left| ≤ halfStep
  bottom : |r'.bottom - r.bottom| ≤ halfStep
  right : |r'.right - r.right| ≤ halfStep
  top : |r'.top - r.top| ≤ halfStep

/-- One rectangle lies inside the other, but for a millionth. -/
def NearlyWithin (inner outer : Bounds Rat) : Prop :=
  outer.left - geometryTolerance ≤ inner.left ∧ inner.right ≤ outer.right + geometryTolerance ∧
    outer.bottom - geometryTolerance ≤ inner.bottom ∧ inner.top ≤ outer.top + geometryTolerance

instance (r s : Bounds Rat) : Decidable (r.NearlyWithin s) :=
  inferInstanceAs (Decidable (_ ∧ _ ∧ _ ∧ _))

variable {r r' s s' : Bounds Rat} {chip : Size Rat}

theorem Near.refl (r : Bounds Rat) : r.Near r := by
  constructor <;> rw [sub_self, abs_zero] <;> exact halfStep_nonneg

theorem boundsOverlap_of_separated (separated : r.Separated s) (hr : r.Near r') (hs : s.Near s') :
    AreaGroup.boundsOverlap r' s' = false := by
  have tolerance := geometryTolerance_eq
  -- the two rectangles lose half a millionth each on the side that keeps them apart
  have moved {a b a' b' : Rat} (ab : a ≤ b) (ha : |a' - a| ≤ halfStep) (hb : |b' - b| ≤ halfStep) :
      ¬ b' < a' - geometryTolerance := by
    rw [abs_le] at ha hb
    linarith
  unfold AreaGroup.boundsOverlap
  simp only [Bool.and_eq_false_iff, decide_eq_false_iff_not]
  rcases separated with h | h | h | h
  · exact .inl (.inl (.inr (moved h hr.right hs.left)))
  · exact .inl (.inl (.inl (moved h hs.right hr.left)))
  · exact .inr (moved h hr.top hs.bottom)
  · exact .inl (.inr (moved h hs.top hr.bottom))

theorem nearlyWithin_of_within (within : r.Within s) (hr : r.Near r') (hs : s.Near s') :
    r'.NearlyWithin s' := by
  obtain ⟨left, right, bottom, top⟩ := within
  have tolerance := geometryTolerance_eq
  have moved {a b a' b' : Rat} (ab : a ≤ b) (ha : |a' - a| ≤ halfStep) (hb : |b' - b| ≤ halfStep) :
      a' ≤ b' + geometryTolerance := by
    rw [abs_le] at ha hb
    linarith
  refine ⟨?_, moved right hr.right hs.right, ?_, moved top hr.top hs.top⟩
  · exact sub_le_iff_le_add.mpr (moved left hs.left hr.left)
  · exact sub_le_iff_le_add.mpr (moved bottom hs.bottom hr.bottom)

theorem boundsInside_of_within (within : r.Within (Floorplan.chipBounds chip)) (hr : r.Near r') :
    Floorplan.boundsInside chip r' = true := by
  obtain ⟨left, right, bottom, top⟩ := nearlyWithin_of_within within hr (.refl _)
  simp only [Floorplan.chipBounds, zero_sub] at left right bottom top
  simp [Floorplan.boundsInside, left, right, bottom, top]

end Bounds

/-! ### Groups -/

namespace AreaGroup

/-- The group with its centre rounded, or the same group. -/
structure Moved (g g' : AreaGroup Rat) : Prop where
  name : g'.name = g.name
  parent : g'.parent = g.parent
  emptyBox : g'.isEmptyBox = g.isEmptyBox
  bounds : ∀ r' ∈ g'.bounds?, ∃ r ∈ g.bounds?, r.Near r'

theorem Moved.refl (g : AreaGroup Rat) : g.Moved g :=
  ⟨rfl, rfl, rfl, fun r hr => ⟨r, hr, .refl r⟩⟩

/-- The group lies inside the other one, but for a millionth, if that is its parent. Groups that
name each other as parent are left out, and so are two empty boxes. -/
def StaysIn (g h : AreaGroup Rat) : Prop :=
  g.parent = some h.name → h.parent ≠ some g.name → ¬ (g.isEmptyBox = true ∧ h.isEmptyBox = true) →
    ∀ r ∈ g.bounds?, ∀ s ∈ h.bounds?, r.NearlyWithin s

/-- The groups share area only if they may, and a child lies inside its parent. -/
structure Agree (g h : AreaGroup Rat) : Prop where
  apart : g.Apart h
  inside : g.StaysIn h
  around : h.StaysIn g

theorem Agree.symm {g h : AreaGroup Rat} (agree : g.Agree h) : h.Agree g :=
  ⟨Std.Symm.symm _ _ agree.apart, agree.around, agree.inside⟩

variable {g g' h h' : AreaGroup Rat}

theorem apart_of_fits (hg : g.Moved g') (hh : h.Moved h')
    (fits : ¬ (g.isEmptyBox = true ∧ h.isEmptyBox = true) → g.Fits h) : g'.Apart h' := by
  intro strangers
  simp only [mayOverlap, nested, Bool.or_eq_false_iff, beq_eq_false_iff_ne, Bool.and_eq_false_iff,
    hg.parent, hg.name, hh.parent, hh.name, hg.emptyBox, hh.emptyBox] at strangers
  obtain ⟨⟨notIn, notAround⟩, boxes⟩ := strangers
  unfold overlaps
  split
  · next r' s' hr' hs' =>
    obtain ⟨r, hr, nearR⟩ := hg.bounds r' hr'
    obtain ⟨s, hs, nearS⟩ := hh.bounds s' hs'
    have separated := fits (by simpa [or_iff_not_imp_left] using boxes) r hr s hs
    rw [if_neg notIn, if_neg notAround] at separated
    exact Bounds.boundsOverlap_of_separated separated nearR nearS
  · rfl

theorem staysIn_of_within (hg : g.Moved g') (hh : h.Moved h')
    (within : g.parent = some h.name → h.parent ≠ some g.name →
      ¬ (g.isEmptyBox = true ∧ h.isEmptyBox = true) →
        ∀ r ∈ g.bounds?, ∀ s ∈ h.bounds?, r.Within s) : g'.StaysIn h' := by
  intro child notParent boxes r' hr' s' hs'
  rw [hg.parent, hh.name] at child
  rw [hh.parent, hg.name] at notParent
  rw [hg.emptyBox, hh.emptyBox] at boxes
  obtain ⟨r, hr, nearR⟩ := hg.bounds r' hr'
  obtain ⟨s, hs, nearS⟩ := hh.bounds s' hs'
  exact Bounds.nearlyWithin_of_within (within child notParent boxes r hr s hs) nearR nearS

/-- Two groups that fit still agree once they are rounded. -/
theorem agree_of_fits (hg : g.Moved g') (hh : h.Moved h')
    (fits : ¬ (g.isEmptyBox = true ∧ h.isEmptyBox = true) → g.Fits h) : g'.Agree h' := by
  refine ⟨apart_of_fits hg hh fits, staysIn_of_within hg hh ?_, staysIn_of_within hh hg ?_⟩
  · intro child _ boxes r hr s hs
    have within := fits boxes r hr s hs
    rwa [if_pos child] at within
  · intro child notParent boxes s hs r hr
    have within := fits (fun both => boxes both.symm) r hr s hs
    rwa [if_neg notParent, if_pos child] at within

end AreaGroup

/-! ### Picks -/

namespace Floorplan.Pick

/-- The pick as it is read back. -/
def rounded (c : Pick) : Pick := { c with x := BatchModel.snap c.x, y := BatchModel.snap c.y }

variable {c : Pick}

theorem placed_rounded {s : Size Rat} (hs : c.group.dimension.choices[c.candidate]? = some s) :
    c.rounded.placed = c.group.place (BatchModel.snap c.x) (BatchModel.snap c.y) s :=
  placed_eq (c := c.rounded) hs

theorem moved_rounded (suits : c.Suits) : c.placed.Moved c.rounded.placed := by
  obtain ⟨s, hs, -⟩ := suits.size
  rw [placed_rounded hs, placed_eq hs]
  refine ⟨rfl, rfl, rfl, fun r' hr' => ?_⟩
  rw [AreaGroup.bounds?_place] at hr'
  obtain rfl := Option.some.inj hr'
  refine ⟨_, AreaGroup.bounds?_place .., ?_⟩
  have x := BatchModel.abs_snap_sub_le c.x
  have y := BatchModel.abs_snap_sub_le c.y
  constructor
  · rwa [sub_sub_sub_cancel_right]
  · rwa [sub_sub_sub_cancel_right]
  · rwa [add_sub_add_right_eq_sub]
  · rwa [add_sub_add_right_eq_sub]

end Floorplan.Pick
end HardwareLinker
