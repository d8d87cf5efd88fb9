import HardwareLinker.Proofs.Floorplan.FreeGroup

/-!
Two groups in the model. Whatever else an assignment gives, the part of the model about a pair holds
only if the pair fits: a child inside its parent, other groups beside each other; and it costs no
less than the weighted distance of the two centres. A pair that fits and lies on the chip leaves
values for the variables of its part that cost exactly this, since no distance on the chip is
greater than its width and height together.
-/

namespace HardwareLinker

/-- A child lies inside its parent, other groups are separated. Of two groups that name each other
as parent, the first is the child. -/
def AreaGroup.Fits (g h : AreaGroup Rat) : Prop :=
  ∀ r ∈ g.bounds?, ∀ s ∈ h.bounds?,
    if g.parent = some h.name then r.Within s
    else if h.parent = some g.name then s.Within r
    else r.Separated s

instance (g h : AreaGroup Rat) : Decidable (g.Fits h) :=
  inferInstanceAs (Decidable (∀ r ∈ g.bounds?, ∀ s ∈ h.bounds?, _))

namespace AreaGroup

/-- How far the centres of two placed groups are apart, along the two axes. -/
def distance (g h : AreaGroup Rat) : Rat :=
  match g.centre?, h.centre? with
  | some (x, y), some (x', y') => |x - x'| + |y - y'|
  | _, _ => 0

/-- What a unit of the distance of two groups costs. -/
def distanceWeight (traffic : TrafficTable Rat) (settings : PlacementSettings Rat)
    (g h : AreaGroup Rat) : Rat :=
  if g.nested h then settings.parentChildWeight
  else settings.trafficWeight * traffic.traffic g.name h.name

/-- The weighted distance of two groups; a weight that is not positive does not count. -/
def wiring (traffic : TrafficTable Rat) (settings : PlacementSettings Rat) (g h : AreaGroup Rat) :
    Rat :=
  if 0 < g.distanceWeight traffic settings h then
    g.distanceWeight traffic settings h * g.distance h
  else 0

end AreaGroup

namespace Floorplan

open Milp

variable {a : Assignment Rat} {P : Assignment Rat → Prop} {tag : String} {first : Nat}
  {far weight : Rat} {geo geo' : Geometry Rat} {r s : Bounds Rat} {chip : Size Rat}
  {g h : AreaGroup Rat}

/-! ### Separation -/

theorem separated_of_holdsAt (h : (separate tag first geo geo' far).HoldsAt first a) :
    (geo.bounds a).Separated (geo'.bounds a) := by
  obtain ⟨⟨p, q⟩, right, left, above, below⟩ := separate_holdsAt.mp h
  unfold Bounds.Separated
  -- the two binaries leave one row without its slack
  rcases p with p | p <;> rcases q with q | q <;> rw [p, q] at right left above below
  · exact .inl (by linarith)
  · exact .inr (.inr (.inl (by linarith)))
  · exact .inr (.inl (by linarith))
  · exact .inr (.inr (.inr (by linarith)))

theorem separate_solvable (shown : ∀ a, P a → geo.bounds a = r ∧ geo'.bounds a = s)
    (hr : r.Within (chipBounds chip)) (hs : s.Within (chipBounds chip))
    (positive : 0 < chip.width ∧ 0 < chip.height) (separated : r.Separated s) :
    (separate tag first geo geo' (chip.width + chip.height)).Solvable first P := by
  obtain ⟨hr₁, hr₂, hr₃, hr₄⟩ := hr
  obtain ⟨hs₁, hs₂, hs₃, hs₄⟩ := hs
  simp only [chipBounds] at *
  have solves (p q : Rat) (hp : p = 0 ∨ p = 1) (hq : q = 0 ∨ q = 1)
      (right : r.right - s.left ≤ (chip.width + chip.height) * (p + q))
      (left : s.right - r.left ≤ (chip.width + chip.height) * (1 - p + q))
      (above : r.top - s.bottom ≤ (chip.width + chip.height) * (1 + p - q))
      (below : s.top - r.bottom ≤ (chip.width + chip.height) * (2 - p - q)) :
      (separate tag first geo geo' (chip.width + chip.height)).Solvable first P := by
    refine ⟨[p, q], rfl, fun a ha lists => separate_holdsAt.mpr ?_⟩
    obtain ⟨hp', hq'⟩ := EachFrom.cons.mp lists
    rw [(shown a ha).1, (shown a ha).2, hp', EachFrom.singleton.mp hq']
    exact ⟨⟨hp, hq⟩, right, left, above, below⟩
  rcases separated with h | h | h | h
  · exact solves 0 0 (.inl rfl) (.inl rfl) (by linarith) (by linarith) (by linarith) (by linarith)
  · exact solves 1 0 (.inr rfl) (.inl rfl) (by linarith) (by linarith) (by linarith) (by linarith)
  · exact solves 0 1 (.inl rfl) (.inr rfl) (by linarith) (by linarith) (by linarith) (by linarith)
  · exact solves 1 1 (.inr rfl) (.inr rfl) (by linarith) (by linarith) (by linarith) (by linarith)

/-! ### Distance -/

theorem Geometry.centre_eq (h : geo.bounds a = r) :
    geo.centreX.eval a = (r.left + r.right) / 2 ∧ geo.centreY.eval a = (r.bottom + r.top) / 2 := by
  subst h
  constructor <;> simp only [Geometry.bounds] <;> ring

theorem distance_eq (hr : r ∈ g.bounds?) (hs : s ∈ h.bounds?) :
    g.distance h = |(r.left + r.right) / 2 - (s.left + s.right) / 2| +
      |(r.bottom + r.top) / 2 - (s.bottom + s.top) / 2| := by
  obtain ⟨x, y, size, hx, hy, -, rfl⟩ := AreaGroup.exists_of_bounds? hr
  obtain ⟨x', y', size', hx', hy', -, rfl⟩ := AreaGroup.exists_of_bounds? hs
  simp [AreaGroup.distance, AreaGroup.centre?, hx, hy, hx', hy']

theorem distance_objective : (distance tag first geo geo' weight far).objective.eval a =
    weight * (a.value first + a.value (first + 1)) := by
  simp [distance, mul_add]

/-- The distance variables take the distances of the centres, which are less than the chip is wide
or high. -/
theorem distance_attains (shown : ∀ a, P a → geo.bounds a = r ∧ geo'.bounds a = s)
    (hr : r.Within (chipBounds chip)) (hs : s.Within (chipBounds chip)) (properR : r.Proper)
    (properS : s.Proper) (rectR : r ∈ g.bounds?) (rectS : s ∈ h.bounds?) :
    (distance tag first geo geo' weight (chip.width + chip.height)).Attains first P
      (weight * g.distance h) := by
  obtain ⟨hr₁, hr₂, hr₃, hr₄⟩ := hr
  obtain ⟨hs₁, hs₂, hs₃, hs₄⟩ := hs
  obtain ⟨wideR, highR⟩ := properR
  obtain ⟨wideS, highS⟩ := properS
  simp only [chipBounds] at *
  refine ⟨[|(r.left + r.right) / 2 - (s.left + s.right) / 2|,
    |(r.bottom + r.top) / 2 - (s.bottom + s.top) / 2|], rfl, fun a ha lists => ?_⟩
  obtain ⟨dx, rest⟩ := EachFrom.cons.mp lists
  have dy := EachFrom.singleton.mp rest
  obtain ⟨x, y⟩ := Geometry.centre_eq (shown a ha).1
  obtain ⟨x', y'⟩ := Geometry.centre_eq (shown a ha).2
  constructor
  · rw [distance_holdsAt, x, y, x', y', dx, dy]
    refine ⟨⟨abs_le.mpr ⟨?_, ?_⟩, abs_le.mpr ⟨?_, ?_⟩⟩, le_refl _, le_refl _⟩ <;> linarith
  · rw [distance_objective, dx, dy, distance_eq rectR rectS]

/-- The distance variables are no less than the distances of the centres. -/
theorem le_distance_objective (holds : (distance tag first geo geo' weight far).HoldsAt first a)
    (rectR : geo.bounds a ∈ g.bounds?) (rectS : geo'.bounds a ∈ h.bounds?) (positive : 0 < weight) :
    weight * g.distance h ≤ (distance tag first geo geo' weight far).objective.eval a := by
  obtain ⟨-, dx, dy⟩ := distance_holdsAt.mp holds
  obtain ⟨x, y⟩ := Geometry.centre_eq (rfl : geo.bounds a = geo.bounds a)
  obtain ⟨x', y'⟩ := Geometry.centre_eq (rfl : geo'.bounds a = geo'.bounds a)
  rw [x, x'] at dx
  rw [y, y'] at dy
  rw [distance_objective, distance_eq rectR rectS]
  exact mul_le_mul_of_nonneg_left (add_le_add dx dy) positive.le

/-! ### The part of a pair -/

variable {traffic : TrafficTable Rat} {settings : PlacementSettings Rat} {i j : Nat}

/-- The part that keeps the pair in order, without the distance. -/
def keepApart (tag : String) (first : Nat) (geo geo' : Geometry Rat) (far : Rat) : Block Rat :=
  if geo.parent = some geo'.name then containChild tag geo' geo
  else if geo'.parent = some geo.name then containChild tag geo geo'
  else separate tag first geo geo' far

theorem fits_of_keepApart (h : (keepApart tag first geo geo' far).HoldsAt first a) :
    if geo.parent = some geo'.name then (geo.bounds a).Within (geo'.bounds a)
    else if geo'.parent = some geo.name then (geo'.bounds a).Within (geo.bounds a)
    else (geo.bounds a).Separated (geo'.bounds a) := by
  unfold keepApart at h
  split at h
  case isTrue child =>
    rw [if_pos child]
    exact containChild_holdsAt.mp h
  case isFalse child =>
    rw [if_neg child]
    split at h
    case isTrue parent =>
      rw [if_pos parent]
      exact containChild_holdsAt.mp h
    case isFalse parent =>
      rw [if_neg parent]
      exact separated_of_holdsAt h

theorem containChild_solvable (shown : ∀ a, P a → geo.bounds a = r ∧ geo'.bounds a = s)
    (within : r.Within s) : (containChild tag geo' geo).Solvable first P := by
  refine ⟨[], rfl, fun a ha _ => containChild_holdsAt.mpr ?_⟩
  rwa [(shown a ha).1, (shown a ha).2]

theorem keepApart_solvable (shown : ∀ a, P a → geo.bounds a = r ∧ geo'.bounds a = s)
    (fits : if geo.parent = some geo'.name then r.Within s
      else if geo'.parent = some geo.name then s.Within r
      else r.Separated s)
    (hr : r.Within (chipBounds chip)) (hs : s.Within (chipBounds chip))
    (positive : 0 < chip.width ∧ 0 < chip.height) :
    (keepApart tag first geo geo' (chip.width + chip.height)).Solvable first P := by
  unfold keepApart
  split
  case isTrue child =>
    rw [if_pos child] at fits
    exact containChild_solvable shown fits
  case isFalse child =>
    rw [if_neg child] at fits
    split
    case isTrue parent =>
      rw [if_pos parent] at fits
      exact containChild_solvable (fun a ha => (shown a ha).symm) fits
    case isFalse parent =>
      rw [if_neg parent] at fits
      exact separate_solvable shown hr hs positive fits

/-- The model is not concerned with two placed groups, nor with two empty boxes. -/
def Geometry.Related (geo geo' : Geometry Rat) : Prop :=
  ¬ (geo.choice = none ∧ geo'.choice = none) ∧ ¬ (geo.emptyBox = true ∧ geo'.emptyBox = true)

theorem relate_of_not_related (h : ¬ geo.Related geo') :
    relate far traffic settings first (geo, i) (geo', j) = {} := by
  have skipped : ((geo.choice.isNone && geo'.choice.isNone) ||
      (geo.emptyBox && geo'.emptyBox)) = true := by
    simpa [Geometry.Related, or_iff_not_imp_left] using h
  simp [relate, skipped]

/-- The weight of the distance of two groups. -/
def pairWeight (traffic : TrafficTable Rat) (settings : PlacementSettings Rat)
    (geo geo' : Geometry Rat) : Rat :=
  if geo.parent = some geo'.name ∨ geo'.parent = some geo.name then settings.parentChildWeight
  else settings.trafficWeight * traffic.traffic geo.name geo'.name

theorem relate_of_related (h : geo.Related geo') :
    relate far traffic settings first (geo, i) (geo', j) =
      if 0 < pairWeight traffic settings geo geo' then
        (keepApart s!"{i}_{j}" first geo geo' far).append (distance s!"{i}_{j}"
          (first + (keepApart s!"{i}_{j}" first geo geo' far).vars.length) geo geo'
          (pairWeight traffic settings geo geo') far)
      else keepApart s!"{i}_{j}" first geo geo' far := by
  have met : ¬ ((geo.choice.isNone && geo'.choice.isNone) ||
      (geo.emptyBox && geo'.emptyBox)) = true := by
    simpa [Geometry.Related, or_iff_not_imp_left] using h
  unfold relate
  rw [if_neg met]
  by_cases child : geo.parent = some geo'.name
  · simp [child, keepApart, pairWeight]
  · by_cases parent : geo'.parent = some geo.name
    · simp [child, parent, keepApart, pairWeight]
    · simp [child, parent, keepApart, pairWeight]

/-- A pair for which the model holds fits. -/
theorem fits_of_holdsAt (hg : geo.Shows a g) (hh : geo'.Shows a h) (related : geo.Related geo')
    (holds : (relate far traffic settings first (geo, i) (geo', j)).HoldsAt first a) :
    g.Fits h := by
  have kept : (keepApart s!"{i}_{j}" first geo geo' far).HoldsAt first a := by
    rw [relate_of_related related] at holds
    split at holds
    · exact (Block.holdsAt_append.mp holds).1
    · exact holds
  intro r hr s hs
  obtain rfl : geo.bounds a = r := Option.some.inj (hg.bounds.symm.trans hr)
  obtain rfl : geo'.bounds a = s := Option.some.inj (hh.bounds.symm.trans hs)
  rw [← hg.parent, ← hg.name, ← hh.parent, ← hh.name]
  exact fits_of_keepApart kept

theorem keepApart_objective : (keepApart tag first geo geo' far).objective = [] := by
  unfold keepApart
  split
  · rfl
  · split <;> rfl

theorem pairWeight_eq (hg : geo.Shows a g) (hh : geo'.Shows a h) :
    pairWeight traffic settings geo geo' = g.distanceWeight traffic settings h := by
  simp [pairWeight, AreaGroup.distanceWeight, AreaGroup.nested, hg.name, hg.parent, hh.name,
    hh.parent]

/-- The part of a pair costs no less than the weighted distance of the two groups. -/
theorem le_relate_objective (hg : geo.Shows a g) (hh : geo'.Shows a h) (related : geo.Related geo')
    (holds : (relate far traffic settings first (geo, i) (geo', j)).HoldsAt first a) :
    g.wiring traffic settings h ≤
      (relate far traffic settings first (geo, i) (geo', j)).objective.eval a := by
  rw [relate_of_related related] at holds ⊢
  rw [pairWeight_eq hg hh] at holds ⊢
  unfold AreaGroup.wiring
  split
  case isTrue positive =>
    rw [if_pos positive] at holds
    rw [Block.append, keepApart_objective, List.nil_append]
    exact le_distance_objective (Block.holdsAt_append.mp holds).2 hg.bounds hh.bounds positive
  case isFalse =>
    rw [keepApart_objective, Terms.eval_nil]

/-- A pair that fits leaves values for its variables, and no more cost than the weighted
distance. -/
theorem relate_attains (inhabited : ∃ a, P a) (shown : ∀ a, P a → geo.Shows a g ∧ geo'.Shows a h)
    (related : geo.Related geo') (fits : g.Fits h) (hr : r ∈ g.bounds?) (hs : s ∈ h.bounds?)
    (onChip : r.Proper ∧ r.Within (chipBounds chip))
    (onChip' : s.Proper ∧ s.Within (chipBounds chip))
    (positive : 0 < chip.width ∧ 0 < chip.height) :
    (relate (chip.width + chip.height) traffic settings first (geo, i) (geo', j)).Attains first P
      (g.wiring traffic settings h) := by
  have bounds : ∀ a, P a → geo.bounds a = r ∧ geo'.bounds a = s := fun a ha =>
    ⟨Option.some.inj ((shown a ha).1.bounds.symm.trans hr),
      Option.some.inj ((shown a ha).2.bounds.symm.trans hs)⟩
  obtain ⟨a, ha⟩ := inhabited
  obtain ⟨hg, hh⟩ := shown a ha
  have pair := fits r hr s hs
  rw [← hg.parent, ← hg.name, ← hh.parent, ← hh.name] at pair
  have kept (tag : String) :
      (keepApart tag first geo geo' (chip.width + chip.height)).Attains first P 0 :=
    (keepApart_solvable bounds pair onChip.2 onChip'.2 positive).attains keepApart_objective
  rw [relate_of_related related, pairWeight_eq hg hh, AreaGroup.wiring]
  split
  · rw [← zero_add (_ * _)]
    exact (kept _).append
      (distance_attains bounds onChip.2 onChip'.2 onChip.1 onChip'.1 hr hs)
  · exact kept _

theorem relate_attains_of_not_related (h : ¬ geo.Related geo') :
    (relate far traffic settings first (geo, i) (geo', j)).Attains first P 0 := by
  rw [relate_of_not_related h]
  exact ⟨[], rfl, fun a _ _ => ⟨⟨EachFrom.nil, by simp⟩, Terms.eval_nil⟩⟩

end Floorplan
end HardwareLinker
