import HardwareLinker.Floorplan.Rules
import HardwareLinker.Proofs.Floorplan.Keyed

/-!
What placement rules do to a plan: they place free groups, and leave all others as they are.
-/

namespace HardwareLinker.Floorplan

variable {α : Type} [Scalar α] {p : Floorplan α} {rule : PlacementRule} {h : AreaGroup α}

theorem ruled?_eq_some (placed : ruled? p rule = some h) :
    ∃ anchor bounds group, p.groups.find? rule.anchor = some anchor ∧ anchor.bounds? = some bounds ∧
      p.groups.find? rule.group = some group ∧ group.isPlaced = false ∧ ¬ group.area ≤ 0 ∧
      h = group.place (besideAnchor bounds group.area rule.side).1
        (besideAnchor bounds group.area rule.side).2.1
          (besideAnchor bounds group.area rule.side).2.2 ∧
      p.contains h = true ∧ ∀ other ∈ p.groups.values, collides h other = false := by
  unfold ruled? at placed
  obtain ⟨anchor, found, placed⟩ := Option.bind_eq_some_iff.mp placed
  obtain ⟨bounds, seen, placed⟩ := Option.bind_eq_some_iff.mp placed
  obtain ⟨group, named, placed⟩ := Option.bind_eq_some_iff.mp placed
  split at placed
  · cases placed
  · next free =>
    dsimp only at placed
    split at placed
    · next fits =>
      cases placed
      simp only [Bool.or_eq_true, decide_eq_true_eq, not_or, Bool.not_eq_true] at free
      simp only [Bool.and_eq_true, Bool.not_eq_true', List.any_eq_false, Bool.not_eq_true] at fits
      exact ⟨anchor, bounds, group, found, seen, named, free.1, free.2, rfl, fits⟩
    · cases placed

/-- What rules have done to a plan so far: the groups named have been free ones, and all others are
as they were. -/
structure Ruled (p : Floorplan α) (done : List String × Floorplan α) : Prop where
  keyed : done.2.Keyed
  kept : ∀ name, name ∉ done.1 → done.2.groups.find? name = p.groups.find? name
  free : ∀ name ∈ done.1, ∀ g, p.groups.find? name = some g → g.isPlaced = false

variable {done : List String × Floorplan α}

theorem Ruled.applyRule (ruled : Ruled p done) (rule : PlacementRule) :
    Ruled p (applyRule done rule) := by
  unfold Floorplan.applyRule
  split
  · next h placed =>
    obtain ⟨_, _, group, -, -, named, unplaced, -, moved, -⟩ := ruled?_eq_some placed
    have group_name : group.name = rule.group := ruled.keyed.name_eq named
    have name : h.name = rule.group := by rwa [moved]
    constructor
    case keyed => exact ruled.keyed.insert rfl
    case kept =>
      intro other fresh
      obtain ⟨before, different⟩ : other ∉ done.1 ∧ other ≠ rule.group := by simpa using fresh
      rw [NameMap.find?_insert, name, if_neg different]
      exact ruled.kept other before
    case free =>
      intro other mem g found
      by_cases before : other ∈ done.1
      · exact ruled.free other before g found
      · obtain rfl : other = rule.group := by simpa [before] using mem
        rw [ruled.kept rule.group before, found] at named
        rwa [Option.some.inj named]
  · exact ruled

theorem applyRules_ruled (keyed : p.Keyed) (rules : List PlacementRule) :
    Ruled p (applyRules p rules) := by
  unfold applyRules
  refine List.foldlRecOn rules _ ⟨keyed, fun _ _ => rfl, by simp⟩ ?_
  intro done ruled rule _
  exact ruled.applyRule rule

/-- What holds between a free group and the group beside its anchor holds between the groups of a
plan and those that rules leave, where anchors may have been put beside others before. -/
theorem applyRules_related {R : AreaGroup α → AreaGroup α → Prop} (keyed : p.Keyed)
    (refl : ∀ g, R g g) (still : ∀ g h, R g h → h.isPlaced = false → h = g)
    (put : ∀ name g₀ anchor bounds, p.groups.find? name = some g₀ → R g₀ anchor →
      anchor.bounds? = some bounds → ∀ g side, g.isPlaced = false → ¬ g.area ≤ 0 →
        R g (g.place (besideAnchor bounds g.area side).1 (besideAnchor bounds g.area side).2.1
          (besideAnchor bounds g.area side).2.2))
    (rules : List PlacementRule) : NameMap.Related R p.groups (applyRules p rules).2.groups := by
  unfold applyRules
  refine (List.foldlRecOn (motive := fun done => Ruled p done ∧
    NameMap.Related R p.groups done.2.groups) rules _
    ⟨⟨keyed, fun _ _ => rfl, by simp⟩, .refl refl p.groups⟩ ?_).2
  rintro done ⟨ruled, related⟩ rule -
  refine ⟨ruled.applyRule rule, ?_⟩
  unfold applyRule
  split
  · next h placed =>
    obtain ⟨anchor, bounds, group, anchored, seen, named, free, positive, rfl, -⟩ :=
      ruled?_eq_some placed
    obtain ⟨g₀, found₀, relatedAnchor⟩ := related.origin anchored
    obtain ⟨g, found, relatedGroup⟩ := related.origin named
    obtain rfl := still g group relatedGroup free
    have name : group.name = rule.group := ruled.keyed.name_eq named
    exact related.insert (name ▸ found)
      (put _ g₀ anchor bounds found₀ relatedAnchor seen _ _ free positive)
  · exact related

end HardwareLinker.Floorplan
