import HardwareLinker.Proofs.Floorplan.Extents

/-!
Groups that rules place. A rule puts a free group flush against a side of a placed anchor, and only
where the final check finds nothing wrong with it: the rule exempts the parent of the new group, the
check exempts its children as well. What has been placed stays, so that each group keeps its anchor
to the end, also where a rule has put that one against another one before.
-/

namespace HardwareLinker

variable {α : Type} [Scalar α]

/-- The group against a side of a rectangle. -/
def AreaGroup.against (g : AreaGroup α) (b : Bounds α) (side : Side) : AreaGroup α :=
  g.place (Floorplan.besideAnchor b g.area side).1 (Floorplan.besideAnchor b g.area side).2.1
    (Floorplan.besideAnchor b g.area side).2.2

/-- The extent that two neighbours at the side share. -/
def Size.along {α : Type} (s : Size α) : Side → α
  | .left | .right => s.height
  | .above | .below => s.width

/-- The extent of a neighbour away from the side. -/
def Size.away {α : Type} (s : Size α) : Side → α
  | .left | .right => s.width
  | .above | .below => s.height

/-- The centre line that two neighbours at the side share. -/
def AreaGroup.line? {α : Type} (g : AreaGroup α) : Side → Option α
  | .left | .right => g.y
  | .above | .below => g.x

/-- The second rectangle lies outside the first one, along the whole of the side. -/
def Bounds.Along (b c : Bounds Rat) : Side → Prop
  | .left => c.right = b.left ∧ c.bottom = b.bottom ∧ c.top = b.top
  | .right => c.left = b.right ∧ c.bottom = b.bottom ∧ c.top = b.top
  | .above => c.bottom = b.top ∧ c.left = b.left ∧ c.right = b.right
  | .below => c.top = b.bottom ∧ c.left = b.left ∧ c.right = b.right

/-- The group lies along the whole side of the anchor and on its centre line, and reaches away from
it by the least whole number of units that covers its area. -/
structure AreaGroup.Flush (anchor h : AreaGroup Rat) (side : Side) : Prop where
  touches : ∃ b c, anchor.bounds? = some b ∧ h.bounds? = some c ∧ b.Along c side
  line : h.line? side = anchor.line? side
  size : ∃ s t, anchor.dimension = .fixed s ∧ h.dimension = .fixed t ∧ t.along side = s.along side ∧
    (0 < s.along side →
      ∃ n : ℤ, t.away side = n ∧ IsLeast {k : ℤ | h.area ≤ k * s.along side} n)

namespace Floorplan

open AreaGroup

variable {p q q' : Floorplan α} {rule : PlacementRule} {rules : List PlacementRule}
  {g h : AreaGroup α}

/-! ### Rules and the final check -/

/-- Where a rule sees no collision, the final check sees none. -/
theorem apart_of_not_collides {other : AreaGroup α} (different : other.name ≠ h.name)
    (clear : collides h other = false) : h.Apart other := by
  intro strict
  simp only [mayOverlap, nested, Bool.or_eq_false_iff, beq_eq_false_iff_ne, ne_eq] at strict
  obtain ⟨⟨child, -⟩, boxes⟩ := strict
  have away : other.name != h.name := bne_iff_ne.mpr different
  have parent : h.parent != some other.name := bne_iff_ne.mpr child
  rw [collides, away, Bool.and_comm other.isEmptyBox, boxes, parent] at clear
  exact clear

/-- The plan with a group bound to its own name. -/
def withGroup (p : Floorplan α) (h : AreaGroup α) : Floorplan α :=
  { p with groups := p.groups.insert h.name h }

theorem cases_of_mem_placedPart {e : String × AreaGroup α}
    (mem : e ∈ (p.withGroup h).placedPart.groups.entries) :
    e = (h.name, h) ∨ (e ∈ p.placedPart.groups.entries ∧ e.1 ≠ h.name) := by
  obtain ⟨mem, placed⟩ := mem_placedPart.mp mem
  exact (NameMap.mem_insert.mp mem).imp_right fun old => ⟨mem_placedPart.mpr ⟨old.1, placed⟩, old.2⟩

/-- A group that the rule may place keeps the placed groups valid. -/
theorem valid_withGroup (keyed : p.Keyed) (valid : p.placedPart.Valid)
    (inside : p.contains h = true) (clear : ∀ other ∈ p.groups.values, collides h other = false) :
    (p.withGroup h).placedPart.Valid := by
  have within : ∀ g ∈ (p.withGroup h).placedPart.groups.values, p.contains g = true := by
    intro g mem
    obtain ⟨name, mem⟩ := NameMap.mem_values.mp mem
    rcases cases_of_mem_placedPart mem with same | ⟨old, -⟩
    · obtain ⟨-, rfl⟩ := Prod.mk.inj same
      exact inside
    · exact valid.inside g (NameMap.mem_values.mpr ⟨name, old⟩)
  have beside {e : String × AreaGroup α} (old : e ∈ p.placedPart.groups.entries)
      (different : e.1 ≠ h.name) : h.Apart e.2 := by
    obtain ⟨mem, -⟩ := mem_placedPart.mp old
    refine apart_of_not_collides ?_ (clear e.2 (NameMap.mem_values.mpr ⟨e.1, mem⟩))
    rwa [keyed e mem]
  refine ⟨fun g mem => isPlaced_of_contains (within g mem), within, fun a ha b hb different => ?_⟩
  rcases cases_of_mem_placedPart ha with rfl | ⟨oldA, newA⟩
  · rcases cases_of_mem_placedPart hb with rfl | ⟨oldB, newB⟩
    · exact absurd rfl different
    · exact beside oldB newB
  · rcases cases_of_mem_placedPart hb with rfl | ⟨oldB, -⟩
    · exact Std.Symm.symm _ _ (beside oldA newA)
    · exact valid.apart a oldA b oldB different

/-! ### Anchors -/

/-- What is placed in the first plan is so in the second one. -/
def KeepsPlaced (p q : Floorplan α) : Prop :=
  ∀ name g, p.groups.find? name = some g → g.isPlaced = true → q.groups.find? name = some g

/-- One of the rules puts the group against an anchor that the plan has. -/
def Follows (rules : List PlacementRule) (q : Floorplan α) (name : String)
    (g h : AreaGroup α) : Prop :=
  ∃ rule ∈ rules, rule.group = name ∧ ∃ anchor b, q.groups.find? rule.anchor = some anchor ∧
    anchor.bounds? = some b ∧ h = g.against b rule.side

theorem Follows.keeps {name : String} (follows : Follows rules q name g h)
    (kept : q.KeepsPlaced q') : Follows rules q' name g h := by
  obtain ⟨rule, mem, named, anchor, b, found, seen, moved⟩ := follows
  exact ⟨rule, mem, named, anchor, b, kept _ _ found (isPlaced_iff.mpr ⟨b, seen⟩), seen, moved⟩

theorem Follows.isPlaced {name : String} (follows : Follows rules q name g h) :
    h.isPlaced = true := by
  obtain ⟨rule, -, -, anchor, b, -, -, rfl⟩ := follows
  rfl

omit [Scalar α] in
/-- A rule takes a free group only. -/
theorem keepsPlaced_withGroup (named : p.groups.find? h.name = some g) (free : g.isPlaced = false) :
    p.KeepsPlaced (p.withGroup h) := by
  intro name other found placed
  have different : name ≠ h.name := by
    rintro rfl
    cases named.symm.trans found
    exact Bool.noConfusion (free.symm.trans placed)
  exact (NameMap.find?_insert ..).trans ((if_neg different).trans found)

/-! ### Rules one after the other -/

/-- What rules have done to a plan so far: the groups named, each named once, stand against anchors
of the plan as it is now. -/
structure Followed (p : Floorplan α) (rules : List PlacementRule)
    (done : List String × Floorplan α) : Prop where
  ruled : Ruled p done
  chip : done.2.chip = p.chip
  once : done.1.Nodup
  follows : ∀ name ∈ done.1, ∃ g h, p.groups.find? name = some g ∧
    done.2.groups.find? name = some h ∧ Follows rules done.2 name g h
  valid : p.placedPart.Valid → done.2.placedPart.Valid

theorem Followed.applyRule {done : List String × Floorplan α} (followed : Followed p rules done)
    (mem : rule ∈ rules) : Followed p rules (applyRule done rule) := by
  have ruled := followed.ruled.applyRule rule
  unfold Floorplan.applyRule at ruled ⊢
  split at ruled
  · next h placed =>
    obtain ⟨anchor, b, group, anchored, seen, named, free, -, moved, inside, clear⟩ :=
      ruled?_eq_some placed
    have groupName : group.name = rule.group := followed.ruled.keyed.name_eq named
    have name : h.name = rule.group := (congrArg AreaGroup.name moved).trans groupName
    -- a group that has been named is placed, and rules take free ones
    have fresh : rule.group ∉ done.1 := by
      intro before
      obtain ⟨_, k, -, found, follows⟩ := followed.follows _ before
      cases found.symm.trans named
      exact Bool.noConfusion (free.symm.trans follows.isPlaced)
    have kept := keepsPlaced_withGroup (h := h) (name ▸ named) free
    constructor
    case ruled => exact ruled
    case chip => exact followed.chip
    case once => exact List.concat_eq_append ▸ followed.once.concat fresh
    case follows =>
      intro other member
      rcases List.mem_append.mp member with before | last
      · obtain ⟨g, k, found, after, follows⟩ := followed.follows other before
        exact ⟨g, k, found, kept _ _ after follows.isPlaced, follows.keeps kept⟩
      · obtain rfl := List.mem_singleton.mp last
        refine ⟨group, h, (followed.ruled.kept _ fresh).symm.trans named, ?_, rule, mem, rfl,
          anchor, b, kept _ _ anchored (isPlaced_iff.mpr ⟨b, seen⟩), seen, moved⟩
        exact (NameMap.find?_insert ..).trans (if_pos name.symm)
    case valid =>
      exact fun valid => valid_withGroup followed.ruled.keyed (followed.valid valid) inside clear
  · exact followed

theorem Keyed.applyRules_followed (keyed : p.Keyed) (rules : List PlacementRule) :
    Followed p rules (applyRules p rules) := by
  unfold applyRules
  refine List.foldlRecOn rules _ ?_ fun done followed rule mem => followed.applyRule mem
  exact ⟨⟨keyed, fun _ _ => rfl, by simp⟩, rfl, .nil, by simp, id⟩

/-! ### The rectangle against its anchor -/

theorem isLeast_ceil_div {area extent : Rat} (positive : 0 < extent) :
    IsLeast {k : ℤ | area ≤ k * extent} (area / extent).ceil := by
  refine ⟨le_ceil_div_mul positive, fun k covers => ?_⟩
  exact Rat.ceil_le_iff.mpr ((div_le_iff₀ positive).mpr covers)

/-- Over exact numbers a group that is put against a side lies flush with it. -/
theorem flush_against {anchor : AreaGroup Rat} {b : Bounds Rat} (seen : anchor.bounds? = some b)
    (g : AreaGroup Rat) (side : Side) : anchor.Flush (g.against b side) side := by
  obtain ⟨x, y, s, hx, hy, size, rfl⟩ := exists_of_bounds? seen
  have two : (2.0 : Rat) = 2 := by norm_num
  have height : y + s.height / 2 - (y - s.height / 2) = s.height := by ring
  have width : x + s.width / 2 - (x - s.width / 2) = s.width := by ring
  have level : (y - s.height / 2 + (y + s.height / 2)) / 2 = y := by ring
  have upright : (x - s.width / 2 + (x + s.width / 2)) / 2 = x := by ring
  cases side with
  | left | right =>
      simp only [against, besideAnchor, two, height, level]
      refine ⟨⟨_, _, seen, bounds?_place .., ?_⟩, hy.symm, s, _, size, rfl, rfl,
        fun positive => ⟨_, rfl, isLeast_ceil_div positive⟩⟩
      refine ⟨?_, rfl, rfl⟩
      ring
  | above | below =>
      simp only [against, besideAnchor, two, width, upright]
      refine ⟨⟨_, _, seen, bounds?_place .., ?_⟩, hx.symm, s, _, size, rfl, rfl,
        fun positive => ⟨_, rfl, isLeast_ceil_div positive⟩⟩
      refine ⟨?_, rfl, rfl⟩
      ring

/-! ### What rules make of a plan -/

/-- What rules may make of a plan: the names of the groups placed, and the plan afterwards. -/
structure KeepsValid (p : Floorplan α) (rules : List PlacementRule)
    (done : List String × Floorplan α) : Prop where
  valid : verify done.2.placedPart = .ok ()
  chip : done.2.chip = p.chip
  keys : done.2.groups.keys = p.groups.keys
  placed : p.KeepsPlaced done.2
  others : ∀ name, name ∉ done.1 → done.2.groups.find? name = p.groups.find? name
  once : done.1.Nodup
  /-- The names are those of the groups that are placed now and were not before. -/
  named : ∀ name, name ∈ done.1 ↔ ∃ g h, p.groups.find? name = some g ∧ g.isPlaced = false ∧
    done.2.groups.find? name = some h ∧ h.isPlaced = true
  /-- Each of these groups is as it was, but for its place against an anchor of the finished
  plan. -/
  follows : ∀ name ∈ done.1, ∃ g h, p.groups.find? name = some g ∧
    done.2.groups.find? name = some h ∧ Follows rules done.2 name g h

theorem Followed.keepsPlaced {done : List String × Floorplan α} (followed : Followed p rules done) :
    p.KeepsPlaced done.2 := fun _ _ => followed.ruled.find?_of_placed

theorem Followed.keys_eq {done : List String × Floorplan α} (followed : Followed p rules done) :
    done.2.groups.keys = p.groups.keys := by
  refine NameMap.Related.keys_eq (R := fun _ _ => True) fun name => ?_
  by_cases mem : name ∈ done.1
  · obtain ⟨g, h, found, after, -⟩ := followed.follows name mem
    rw [found, after]
    exact .some trivial
  · rw [followed.ruled.kept name mem]
    cases p.groups.find? name with
    | none => exact .none
    | some g => exact .some trivial

theorem Followed.keepsValid {done : List String × Floorplan α} (followed : Followed p rules done)
    (valid : verify p.placedPart = .ok ()) : p.KeepsValid rules done where
  valid := verify_eq_ok.mpr (followed.valid (verify_eq_ok.mp valid))
  chip := followed.chip
  keys := followed.keys_eq
  placed := followed.keepsPlaced
  others := followed.ruled.kept
  once := followed.once
  named name := by
    constructor
    · intro mem
      obtain ⟨g, h, found, after, follows⟩ := followed.follows name mem
      exact ⟨g, h, found, followed.ruled.free name mem g found, after, follows.isPlaced⟩
    · rintro ⟨g, h, found, free, after, placed⟩
      by_contra unnamed
      cases ((followed.ruled.kept name unnamed).symm.trans after).symm.trans found
      exact Bool.noConfusion (free.symm.trans placed)
  follows := followed.follows

/-- **Rules keep a plan valid.** If the placed groups of a plan pass the final check among
themselves, they do so after rules in any order, which leave them as they are and place just the
groups that they name; over exact numbers each of these lies flush with its anchor. -/
theorem applyRules_keepsValid :
    (∀ {α : Type} [Scalar α] (p : Floorplan α) (rules : List PlacementRule), p.Keyed →
      verify p.placedPart = .ok () → p.KeepsValid rules (applyRules p rules)) ∧
    ∀ (p : Floorplan Rat) (rules : List PlacementRule), p.Keyed → ∀ name ∈ (applyRules p rules).1,
      ∃ rule ∈ rules, rule.group = name ∧ ∃ anchor h,
        (applyRules p rules).2.groups.find? rule.anchor = some anchor ∧
        (applyRules p rules).2.groups.find? name = some h ∧ anchor.Flush h rule.side := by
  refine ⟨fun p rules keyed valid => (keyed.applyRules_followed rules).keepsValid valid, ?_⟩
  intro p rules keyed name mem
  obtain ⟨g, h, -, after, rule, member, named, anchor, b, found, seen, rfl⟩ :=
    (keyed.applyRules_followed rules).follows name mem
  exact ⟨rule, member, named, anchor, _, found, after, flush_against seen g rule.side⟩

/-- The second rule takes the group of the first one for its anchor. -/
theorem fixedPlan_keepsValid : fixedPlan.Keyed ∧ verify fixedPlan.placedPart = .ok () ∧
    fixedPlan.KeepsValid sideBySide (applyRules fixedPlan sideBySide) ∧
    (applyRules fixedPlan sideBySide).1 = ["user", "cache"] ∧
    ∃ anchor h, (applyRules fixedPlan sideBySide).2.groups.find? "user" = some anchor ∧
      (applyRules fixedPlan sideBySide).2.groups.find? "cache" = some h ∧ anchor.Flush h .left := by
  have keyed : fixedPlan.Keyed := by decide +kernel
  have valid : verify fixedPlan.placedPart = .ok () := toOption_eq_some.mp (by decide +kernel)
  have named : (applyRules fixedPlan sideBySide).1 = ["user", "cache"] := by decide +kernel
  obtain ⟨keeps, flush⟩ := applyRules_keepsValid
  refine ⟨keyed, valid, keeps fixedPlan sideBySide keyed valid, named, ?_⟩
  obtain ⟨rule, mem, group, anchor, h, found, after, flush⟩ :=
    flush fixedPlan sideBySide keyed "cache" (by simp [named])
  obtain rfl : rule = ⟨"cache", "user", .left⟩ := by
    rcases List.mem_cons.mp mem with rfl | mem
    · exact absurd group (by decide)
    · exact List.mem_singleton.mp mem
  exact ⟨anchor, h, found, after, flush⟩

end Floorplan
end HardwareLinker
