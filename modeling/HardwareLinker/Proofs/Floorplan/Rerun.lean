import HardwareLinker.Proofs.Floorplan.Chosen
import HardwareLinker.Proofs.Floorplan.Reuse
import HardwareLinker.Proofs.Floorplan.Sizes

/-!
Runs that start from the result of an earlier one. Every size that the file leaves open is taken
over, because its area has not changed, and a size taken over is the only one to choose from. Rules
alone can give another size: a group that has a centre is placed once its size is taken over, so
that a rule may now take it for an anchor.
-/

namespace HardwareLinker

variable {α : Type} [Scalar α]

namespace AreaGroup

/-- The group as it was, or a free one beside an anchor; no rule takes a group without an area. -/
inductive Beside (g : AreaGroup α) : AreaGroup α → Prop where
  | kept : Beside g g
  | put (x y : α) (s : Size α) (free : g.isPlaced = false) (positive : ¬ g.area ≤ 0) :
      Beside g (g.place x y s)

theorem Beside.eq_of_free {g h : AreaGroup α} (beside : g.Beside h) (free : h.isPlaced = false) :
    h = g := by
  cases beside with
  | kept => rfl
  | put => cases free

/-- The group as it was, or a free one with another size that is still free. -/
inductive Resized (g : AreaGroup α) : AreaGroup α → Prop where
  | kept : Resized g g
  | resized (d : Dimension α) (free : g.isPlaced = false)
      (still : { g with dimension := d }.isPlaced = false) : Resized g { g with dimension := d }

namespace Resized

variable {g g' : AreaGroup α}

omit [Scalar α] in
theorem isPlaced_eq (resized : g.Resized g') : g'.isPlaced = g.isPlaced := by
  cases resized with
  | kept => rfl
  | resized d free still => rw [free, still]

theorem bounds?_eq (resized : g.Resized g') : g'.bounds? = g.bounds? := by
  have unseen {g : AreaGroup α} (free : g.isPlaced = false) : g.bounds? = none := by
    rw [Option.eq_none_iff_forall_ne_some]
    intro b seen
    rw [isPlaced_iff.mpr ⟨b, seen⟩] at free
    cases free
  cases resized with
  | kept => rfl
  | resized d free still => rw [unseen free, unseen still]

omit [Scalar α] in
theorem area_eq (resized : g.Resized g') : g'.area = g.area := by
  cases resized <;> rfl

omit [Scalar α] in
theorem place_eq (resized : g.Resized g') (x y : α) (s : Size α) :
    g'.place x y s = g.place x y s := by
  cases resized <;> rfl

theorem collides_eq (resized : g.Resized g') (candidate : AreaGroup α) :
    Floorplan.collides candidate g' = Floorplan.collides candidate g := by
  have seen := resized.bounds?_eq
  cases resized with
  | kept => rfl
  | resized d =>
      unfold Floorplan.collides overlaps
      rw [seen]
      rfl

end Resized
end AreaGroup

namespace Floorplan

open AreaGroup

variable {p p' q q' : Floorplan α} {r r' : Run α}

/-! ### Rules see no sizes of free groups -/

/-- The plans differ in sizes of free groups only. -/
structure Alike (p p' : Floorplan α) : Prop where
  chip : p'.chip = p.chip
  groups : NameMap.Related Resized p.groups p'.groups

theorem Alike.any_collides (alike : p.Alike p') (candidate : AreaGroup α) :
    p'.groups.values.any (collides candidate) = p.groups.values.any (collides candidate) := by
  rw [Bool.eq_iff_iff, List.any_eq_true, List.any_eq_true]
  constructor
  · rintro ⟨g', mem, hits⟩
    obtain ⟨name, listed⟩ := NameMap.mem_values_iff.mp mem
    obtain ⟨g, found, resized⟩ := alike.groups.origin listed
    exact ⟨g, NameMap.mem_values_iff.mpr ⟨_, found⟩, resized.collides_eq candidate ▸ hits⟩
  · rintro ⟨g, mem, hits⟩
    obtain ⟨name, listed⟩ := NameMap.mem_values_iff.mp mem
    obtain ⟨g', found, resized⟩ := alike.groups.image listed
    exact ⟨g', NameMap.mem_values_iff.mpr ⟨_, found⟩, (resized.collides_eq candidate).trans hits⟩

theorem Alike.ruled?_eq (alike : p.Alike p') (rule : PlacementRule) :
    ruled? p' rule = ruled? p rule := by
  unfold ruled?
  cases anchored : p.groups.find? rule.anchor with
  | none =>
      rw [alike.groups.find?_eq_none anchored]
      rfl
  | some anchor =>
      obtain ⟨anchor', anchored', anchorResized⟩ := alike.groups.image anchored
      cases named : p.groups.find? rule.group with
      | none =>
          rw [anchored', alike.groups.find?_eq_none named]
          simp only [Option.bind_eq_bind, Option.bind_some, Option.bind_none,
            anchorResized.bounds?_eq]
      | some group =>
          obtain ⟨group', named', groupResized⟩ := alike.groups.image named
          rw [anchored', named']
          simp only [Option.bind_eq_bind, Option.bind_some, anchorResized.bounds?_eq,
            groupResized.isPlaced_eq, groupResized.area_eq, groupResized.place_eq,
            alike.any_collides, contains, alike.chip]
          rfl

theorem Alike.applyRules (alike : p.Alike p') (rules : List PlacementRule) :
    (Floorplan.applyRules p rules).2.Alike (Floorplan.applyRules p' rules).2 := by
  have run (done done' : List String × Floorplan α) (alike : done.2.Alike done'.2) :
      (rules.foldl applyRule done).2.Alike (rules.foldl applyRule done').2 := by
    induction rules generalizing done done' with
    | nil => exact alike
    | cons rule rules ih =>
        refine ih _ _ ?_
        unfold applyRule
        rw [alike.ruled?_eq]
        cases ruled? done.2 rule with
        | none => exact alike
        | some h => exact ⟨alike.chip, alike.groups.insert_both .kept⟩
  exact run _ _ alike

theorem Keyed.applyRules_beside (keyed : p.Keyed) (rules : List PlacementRule) :
    NameMap.Related Beside p.groups (applyRules p rules).2.groups :=
  applyRules_related keyed (fun _ => .kept) (fun _ _ => Beside.eq_of_free)
    (fun _ _ _ _ _ _ _ _ _ free positive => .put _ _ _ free positive) rules

/-! ### Sizes taken over -/

/-- A run over a plan, and one more over the same plan that starts from the result. -/
structure Reruns (r r' : Run α) (p q q' : Floorplan α) : Prop where
  keyed : p.Keyed
  settings : r'.settings = r.settings
  /-- Sizes to choose from are offered only where there is an area, and that is within tolerance of
  itself. -/
  within : p.groups.Each fun _ g => (∀ s, g.dimension ≠ .fixed s) → ¬ g.area ≤ 0 →
    Scalar.abs (g.area - g.area) ≤ r.settings.areaReuseTolerance * g.area
  offers : p.groups.Each fun _ g => (∀ s, g.dimension ≠ .fixed s) → ∀ s ∈ g.dimension.choices,
    ¬ g.area ≤ 0
  solved : r.solve p none = .ok q
  again : r'.solve p (some q.groups) = .ok q'

/-- The plan with the sizes of the earlier result. -/
def seeded (r : Run α) (p q : Floorplan α) : Floorplan α :=
  (seedFromPrior p q.groups r.settings.areaReuseTolerance).2

namespace Reruns

variable {name : String} {g : AreaGroup α}

theorem find?_seeded_of_fixed (found : p.groups.find? name = some g) {s : Size α}
    (size : g.dimension = .fixed s) : (seeded r p q).groups.find? name = some g := by
  have kept : priorSize? q.groups r.settings.areaReuseTolerance g = none := by
    simp [priorSize?, size, Dimension.fixed?]
  rw [seeded, seedFromPrior, NameMap.find?_mapValues, found, Option.map_some, kept]

theorem keyed_seeded (reruns : Reruns r r' p q q') : (seeded r p q).Keyed :=
  reruns.keyed.seedFromPrior q.groups r.settings.areaReuseTolerance

theorem base_eq (reruns : Reruns r r' p q q') :
    r'.base p (some q.groups) = (applyRules (seeded r p q) r.settings.rules).2 := by
  rw [Run.base, reruns.settings]
  rfl

theorem find?_eq_none (reruns : Reruns r r' p q q') (unknown : p.groups.find? name = none) :
    q.groups.find? name = none ∧ q'.groups.find? name = none := by
  have between := (reruns.keyed.applyRules_beside r.settings.rules).find?_eq_none unknown
  have unknown' : (seeded r p q).groups.find? name = none := by
    rw [seeded, seedFromPrior, NameMap.find?_mapValues, unknown, Option.map_none]
  have between' := (reruns.keyed_seeded.applyRules_beside r.settings.rules).find?_eq_none unknown'
  exact ⟨(reruns.keyed.solve_completes reruns.solved).groups.find?_eq_none between,
    (reruns.keyed.solve_completes reruns.again).groups.find?_eq_none (reruns.base_eq ▸ between')⟩

/-- A group of open size ends with its area as it was, and that is positive. -/
theorem exists_size (reruns : Reruns r r' p q q') (found : p.groups.find? name = some g)
    (unsized : ∀ s, g.dimension ≠ .fixed s) : ∃ h s, q.groups.find? name = some h ∧
      h.dimension = .fixed s ∧ h.area = g.area ∧ ¬ g.area ≤ 0 := by
  obtain ⟨b, between, beside⟩ := (reruns.keyed.applyRules_beside r.settings.rules).image found
  obtain ⟨h, after, chosen⟩ := (reruns.keyed.solve_completes reruns.solved).groups.image between
  have placed := isPlaced_of_solve reruns.solved h (NameMap.mem_values_iff.mpr ⟨_, after⟩)
  obtain ⟨s, size⟩ := exists_fixed placed
  refine ⟨h, s, after, size, ?_⟩
  cases beside with
  | kept =>
      cases chosen with
      | kept => exact absurd size (unsized s)
      | put x y free offered => exact ⟨rfl, reruns.offers name g found unsized _ offered⟩
  | put x y s free positive =>
      cases chosen with
      | kept => exact ⟨rfl, positive⟩
      | put x y free => cases free

theorem find?_seeded_of_open (reruns : Reruns r r' p q q') (found : p.groups.find? name = some g)
    (unsized : ∀ s, g.dimension ≠ .fixed s) : ∃ h s, q.groups.find? name = some h ∧
      h.dimension = .fixed s ∧
      (seeded r p q).groups.find? name = some { g with dimension := .fixed s } := by
  obtain ⟨h, s, after, size, area, positive⟩ := reruns.exists_size found unsized
  refine ⟨h, s, after, size, ?_⟩
  have taken : priorSize? q.groups r.settings.areaReuseTolerance g = some s := by
    have within := reruns.within name g found unsized positive
    simp [priorSize?, isPlaced, AreaGroup.Keyed.name_eq reruns.keyed found, after, size,
      Dimension.fixed?, area, within]
  rw [seeded, seedFromPrior, NameMap.find?_mapValues, found, Option.map_some, taken]

/-- Where the rules leave the group as it is in the rerun, and in the first run if the file fixes
its size, it gets its size again. -/
theorem size_of_unruled (reruns : Reruns r r' p q q') (found : p.groups.find? name = some g)
    (second : (r'.base p (some q.groups)).groups.find? name = (seeded r p q).groups.find? name)
    (first : (r.base p none).groups.find? name = some g ∨ ∀ s, g.dimension ≠ .fixed s) :
    ∃ h h', q.groups.find? name = some h ∧ q'.groups.find? name = some h' ∧
      h'.dimension = h.dimension := by
  have completes := reruns.keyed.solve_completes reruns.solved
  have completes' := reruns.keyed.solve_completes reruns.again
  by_cases fixed : ∃ s, g.dimension = .fixed s
  · obtain ⟨s, size⟩ := fixed
    have unruled := first.resolve_right fun unsized => unsized s size
    obtain ⟨h, after, sizeH⟩ := completes.size_of_fixed unruled size
    obtain ⟨h', after', sizeH'⟩ :=
      completes'.size_of_fixed (second.trans (find?_seeded_of_fixed found size)) size
    exact ⟨h, h', after, after', sizeH'.trans sizeH.symm⟩
  · obtain ⟨h, s, after, size, seededAs⟩ := reruns.find?_seeded_of_open found (not_exists.mp fixed)
    obtain ⟨h', after', size'⟩ := completes'.size_of_fixed (second.trans seededAs) rfl
    exact ⟨h, h', after, after', size'.trans size.symm⟩

/-- Where every group with a centre has a size, sizes taken over place no group. -/
theorem alike_seeded (reruns : Reruns r r' p q q')
    (centred : ∀ g ∈ p.groups.values, g.x.isSome = true → g.y.isSome = true → g.isPlaced = true) :
    p.Alike (seeded r p q) where
  chip := rfl
  groups name := by
    cases found : p.groups.find? name with
    | none => rw [seeded, seedFromPrior, NameMap.find?_mapValues, found]; exact .none
    | some g =>
        by_cases fixed : ∃ s, g.dimension = .fixed s
        · obtain ⟨s, size⟩ := fixed
          rw [find?_seeded_of_fixed found size]
          exact .some .kept
        · obtain ⟨h, s, -, -, seededAs⟩ := reruns.find?_seeded_of_open found (not_exists.mp fixed)
          have free : g.isPlaced = false := by
            rw [Bool.eq_false_iff]
            exact fun placed => fixed (exists_fixed placed)
          rw [seededAs]
          refine .some (.resized _ free ?_)
          rw [Bool.eq_false_iff]
          intro placed
          simp only [isPlaced, Bool.and_eq_true] at placed
          have mem := NameMap.mem_values_iff.mpr ⟨_, found⟩
          exact fixed (exists_fixed (centred g mem placed.1.1 placed.1.2))

/-- Where every group with a centre has a size, rules do the same in both runs. -/
theorem size_of_centred (reruns : Reruns r r' p q q')
    (centred : ∀ g ∈ p.groups.values, g.x.isSome = true → g.y.isSome = true → g.isPlaced = true)
    (found : p.groups.find? name = some g) : ∃ h h', q.groups.find? name = some h ∧
      q'.groups.find? name = some h' ∧ h'.dimension = h.dimension := by
  have alike := (reruns.alike_seeded centred).applyRules r.settings.rules
  obtain ⟨b, between, beside⟩ := (reruns.keyed.applyRules_beside r.settings.rules).image found
  obtain ⟨b', between', resized⟩ := alike.groups.image between
  by_cases placed : b.isPlaced = true
  · -- a group that the file or a rule has placed is the same in both runs
    cases resized with
    | kept =>
        have first := (reruns.keyed.solve_completes reruns.solved).find?_of_placed between placed
        have again := (reruns.keyed.solve_completes reruns.again).find?_of_placed
          (reruns.base_eq ▸ between') placed
        exact ⟨b, b, first, again, rfl⟩
    | resized d free =>
        rw [placed] at free
        cases free
  · have free : b.isPlaced = false := by simpa using placed
    obtain ⟨g', seededAs, beside'⟩ :=
      (reruns.keyed_seeded.applyRules_beside r.settings.rules).origin between'
    obtain rfl := beside.eq_of_free free
    obtain rfl := beside'.eq_of_free (resized.isPlaced_eq.trans free)
    exact reruns.size_of_unruled found (reruns.base_eq ▸ between'.trans seededAs.symm)
      (.inl between)

end Reruns

/-- **A rerun keeps sizes, rules apart.** With the same settings, a run that starts from the groups
of an earlier result gives every group the size that it had there, if every group with a centre has
a size in the file. In any case it does so for a group that no rule takes in the rerun, and that no
rule has taken before either if the file fixes its size. -/
theorem Run.rerun_keeps_sizes [Scalar.Reusing α] (r r' : Run α) (source : String)
    (set : ConstraintSet α) (areas : NameMap α) (settings : PlacementSettings α)
    (p q q' : Floorplan α) (read : ConstraintSet.ofText source = .ok set)
    (elaborated : elaborate set areas settings = .ok p)
    (same : r'.settings = r.settings) (tolerance : 0 ≤ r.settings.areaReuseTolerance)
    (finite : ∀ g ∈ p.groups.values, (∀ s, g.dimension ≠ .fixed s) → Scalar.isFinite g.area = true)
    (solved : r.solve p none = .ok q) (again : r'.solve p (some q.groups) = .ok q') :
    ((∀ g ∈ p.groups.values, g.x.isSome = true → g.y.isSome = true → g.isPlaced = true) →
      ∀ name, (q'.groups.find? name).map (·.dimension) = (q.groups.find? name).map (·.dimension)) ∧
    ∀ name, name ∉ (applyRules (seeded r p q) r.settings.rules).1 →
      (name ∈ (applyRules p r.settings.rules).1 →
        ∀ g s, p.groups.find? name = some g → g.dimension ≠ .fixed s) →
      (q'.groups.find? name).map (·.dimension) = (q.groups.find? name).map (·.dimension) := by
  obtain ⟨keyed, -⟩ := elaborate_spec (ConstraintSet.keyed_ofText read) elaborated
  have reruns : Reruns r r' p q q' := by
    refine ⟨keyed, same, fun name g found unsized positive => ?_,
      fun name g found unsized s mem => ?_, solved, again⟩
    · have listed := NameMap.mem_values_iff.mpr ⟨_, found⟩
      exact Scalar.Reusing.within _ _ tolerance (finite g listed unsized) positive
    · exact (mem_aspectOptions
        ((elaborate_sizes read elaborated name g found).mem_aspectOptions unsized mem)).1
  constructor
  · intro centred name
    cases found : p.groups.find? name with
    | none => rw [(reruns.find?_eq_none found).1, (reruns.find?_eq_none found).2]
    | some g =>
        obtain ⟨h, h', after, after', size⟩ := reruns.size_of_centred centred found
        rw [after, after', Option.map_some, Option.map_some, size]
  · intro name unruled left
    cases found : p.groups.find? name with
    | none => rw [(reruns.find?_eq_none found).1, (reruns.find?_eq_none found).2]
    | some g =>
        have first : (r.base p none).groups.find? name = some g ∨ ∀ s, g.dimension ≠ .fixed s := by
          by_cases taken : name ∈ (applyRules p r.settings.rules).1
          · exact .inr fun s => left taken g s found
          · exact .inl (((applyRules_ruled keyed r.settings.rules).kept name taken).trans found)
        have second : (r'.base p (some q.groups)).groups.find? name =
            (seeded r p q).groups.find? name := by
          rw [reruns.base_eq]
          exact (applyRules_ruled reruns.keyed_seeded r.settings.rules).kept name unruled
        obtain ⟨h, h', after, after', size⟩ := reruns.size_of_unruled found second first
        rw [after, after', Option.map_some, Option.map_some, size]

/-! ### An anchor with a centre -/

/-- A group with a centre, its size left open, and a group of which the file says nothing but the
area. -/
def anchorSource : String :=
  "DIMENSION FPGA 100,100; AREAGROUP a = None; LOCATION a 50,50; RESOURCES a 400;
   AREAGROUP user = None; RESOURCES user 100;"

def anchorGroup : AreaGroup Rat :=
  { name := "a", area := 400, x := some 50, y := some 50, dimension := .options [⟨20, 20⟩] }

def neighbourGroup : AreaGroup Rat :=
  { name := "user", area := 100, dimension := .options [⟨10, 10⟩] }

def anchorPlan : Floorplan Rat :=
  ⟨⟨100, 100⟩, .ofList [("a", anchorGroup), ("user", neighbourGroup)]⟩

/-- The plan with the second group put somewhere left of the first one. -/
def anchorPlaced (x y : Rat) : Floorplan Rat :=
  ⟨⟨100, 100⟩, .ofList [("a", anchorGroup.place 50 50 ⟨20, 20⟩),
    ("user", neighbourGroup.place x y ⟨10, 10⟩)]⟩

def anchorRun (rules : List PlacementRule) (answers : List (Milp.Assignment Rat)) : Run Rat :=
  { replaying answers with settings := { aspectRatios := [1], rules } }

/-- The second group goes left of the first one. -/
def leftOfAnchor : List PlacementRule := [⟨"user", "a", .left⟩]

theorem anchorSource_elaborated : ∃ set, ConstraintSet.ofText anchorSource = .ok set ∧
    elaborate set .empty ({ aspectRatios := [1] } : PlacementSettings Rat) = .ok anchorPlan := by
  have evaluated : ((ConstraintSet.ofText anchorSource).toOption.bind fun set =>
      (elaborate set .empty ({ aspectRatios := [1] } : PlacementSettings Rat)).toOption) =
      some anchorPlan := by decide +kernel
  obtain ⟨set, read, elaborated⟩ := Option.bind_eq_some_iff.mp evaluated
  exact ⟨set, toOption_eq_some.mp read, toOption_eq_some.mp elaborated⟩

/-- The anchor has no size before the solver gives it one, so that the rule is skipped. -/
theorem anchorPlan_solved (rules : List PlacementRule)
    (either : rules = [] ∨ rules = leftOfAnchor) :
    (anchorRun rules [#[1, 50, 50], #[1, 10, 10, 0, 0]]).solve anchorPlan none =
      .ok (anchorPlaced 10 10) := by
  have order : solveOrder anchorPlan = ["a", "user"] :=
    (solveOrder_of_pairwise (by decide +kernel)).trans (by decide +kernel)
  have batches : chunks 1 ["a", "user"] = [["a"], ["user"]] := by simp [chunks]
  have base :
      (anchorRun rules [#[1, 50, 50], #[1, 10, 10, 0, 0]]).base anchorPlan none = anchorPlan := by
    rcases either with rfl | rfl <;> decide +kernel
  refine solve_of_placeBatches (base ▸ order) (by decide) rfl ?_
  rw [base, batches, ← toOption_eq_some]
  rcases either with rfl | rfl <;> decide +kernel

/-- Without rules the second group moves in the rerun, and keeps its size. -/
theorem Run.rerun_keeps_sizes_anchor : ∃ set, ConstraintSet.ofText anchorSource = .ok set ∧
    elaborate set .empty ({ aspectRatios := [1] } : PlacementSettings Rat) = .ok anchorPlan ∧
    (anchorRun [] [#[1, 50, 50], #[1, 10, 10, 0, 0]]).solve anchorPlan none =
      .ok (anchorPlaced 10 10) ∧
    (anchorRun [] [#[1, 20, 20, 0, 0]]).solve anchorPlan (some (anchorPlaced 10 10).groups) =
      .ok (anchorPlaced 20 20) ∧
    ((anchorPlaced 20 20).groups.find? "user").map (·.dimension) =
      ((anchorPlaced 10 10).groups.find? "user").map (·.dimension) := by
  obtain ⟨set, read, elaborated⟩ := anchorSource_elaborated
  have solved := anchorPlan_solved [] (.inl rfl)
  have again :
      (anchorRun [] [#[1, 20, 20, 0, 0]]).solve anchorPlan (some (anchorPlaced 10 10).groups) =
      .ok (anchorPlaced 20 20) := by
    have order : solveOrder ((anchorRun [] [#[1, 20, 20, 0, 0]]).base anchorPlan
        (some (anchorPlaced 10 10).groups)) = ["user"] :=
      (solveOrder_of_pairwise (by decide +kernel)).trans (by decide +kernel)
    have batches : chunks 1 ["user"] = [["user"]] := by simp [chunks]
    refine solve_of_placeBatches order (by decide) rfl ?_
    rw [batches, ← toOption_eq_some]
    decide +kernel
  have kept := (rerun_keeps_sizes (anchorRun [] [#[1, 50, 50], #[1, 10, 10, 0, 0]])
    (anchorRun [] [#[1, 20, 20, 0, 0]]) anchorSource set .empty _ anchorPlan _ _ read elaborated rfl
    (by decide +kernel) (fun _ _ _ => rfl) solved again).2 "user" List.not_mem_nil fun taken =>
      absurd taken List.not_mem_nil
  exact ⟨set, read, elaborated, solved, again, kept⟩

/-- With its size taken over the first group is an anchor, and the rule gives the second group
another size. -/
theorem rerun_resized : ∃ set q', ConstraintSet.ofText anchorSource = .ok set ∧
    elaborate set .empty ({ aspectRatios := [1] } : PlacementSettings Rat) = .ok anchorPlan ∧
    (anchorRun leftOfAnchor [#[1, 50, 50], #[1, 10, 10, 0, 0]]).solve anchorPlan none =
      .ok (anchorPlaced 10 10) ∧
    (anchorRun leftOfAnchor []).solve anchorPlan (some (anchorPlaced 10 10).groups) = .ok q' ∧
    ((anchorPlaced 10 10).groups.find? "user").map (·.dimension) = some (.fixed ⟨10, 10⟩) ∧
    (q'.groups.find? "user").map (·.dimension) = some (.fixed ⟨5, 20⟩) := by
  obtain ⟨set, read, elaborated⟩ := anchorSource_elaborated
  have again : (anchorRun leftOfAnchor []).solve anchorPlan (some (anchorPlaced 10 10).groups) =
      .ok ((anchorRun leftOfAnchor []).base anchorPlan (some (anchorPlaced 10 10).groups)) :=
    solve_of_placed (by decide +kernel)
  exact ⟨set, _, read, elaborated, anchorPlan_solved leftOfAnchor (.inr rfl),
    again, by decide +kernel, by decide +kernel⟩

end Floorplan
end HardwareLinker
