import Mathlib.Data.List.Induction
import HardwareLinker.Proofs.Constraint.Reading
import HardwareLinker.Proofs.Floorplan.Elaboration
import HardwareLinker.Proofs.Pairs

/-!
The hierarchy that a constraint file declares. A nesting is written down twice, as the parent of the
child and among the children of the parent; whatever other statements stand between, the two always
say the same, since each holds exactly what the nestings of the file say.
-/

namespace HardwareLinker

/-- Groups nested one level deep at most, with parents and children that mirror each other. -/
structure AreaGroup.Hierarchy {α : Type} (groups : NameMap (AreaGroup α)) : Prop where
  keyed : AreaGroup.Keyed groups
  mirrored : ∀ c g p, groups.find? c = some g →
    (g.parent = some p ↔ p ≠ c ∧ ∃ h, groups.find? p = some h ∧ c ∈ h.children)
  declared : ∀ p h, groups.find? p = some h → ∀ c ∈ h.children, ∃ g, groups.find? c = some g
  ascending : ∀ p h, groups.find? p = some h → h.children.Pairwise (· < ·)
  shallow : ∀ name g, groups.find? name = some g → g.parent = none ∨ g.children = []

namespace Constraint

variable {α : Type} [Scalar α] {ss : List (Statement α)} {s : Statement α}
  {name child parent : String}

/-! ### What the nestings say -/

/-- The parents that nestings give the group, in order. -/
def parentsIn (name : String) (ss : List (Statement α)) : List String :=
  ss.filterMap fun
    | .nest child parent => if child = name then some parent else none
    | _ => none

/-- The children that nestings give the group, in order. -/
def childrenIn (name : String) (ss : List (Statement α)) : List String :=
  ss.filterMap fun
    | .nest child parent => if parent = name then some child else none
    | _ => none

omit [Scalar α] in
theorem parentsIn_append (name : String) (front back : List (Statement α)) :
    parentsIn name (front ++ back) = parentsIn name front ++ parentsIn name back :=
  List.filterMap_append

omit [Scalar α] in
theorem childrenIn_append (name : String) (front back : List (Statement α)) :
    childrenIn name (front ++ back) = childrenIn name front ++ childrenIn name back :=
  List.filterMap_append

omit [Scalar α] in
theorem mem_parentsIn : parent ∈ parentsIn child ss ↔ .nest child parent ∈ ss := by
  rw [parentsIn, List.mem_filterMap]
  constructor
  · rintro ⟨s, mem, said⟩
    cases s <;> simp_all
  · intro mem
    exact ⟨_, mem, if_pos rfl⟩

omit [Scalar α] in
theorem mem_childrenIn : child ∈ childrenIn parent ss ↔ .nest child parent ∈ ss := by
  rw [childrenIn, List.mem_filterMap]
  constructor
  · rintro ⟨s, mem, said⟩
    cases s <;> simp_all
  · intro mem
    exact ⟨_, mem, if_pos rfl⟩

omit [Scalar α] in
/-- Both count the nestings of the child in the parent. -/
theorem count_childrenIn :
    (childrenIn parent ss).count child = (parentsIn child ss).count parent := by
  induction ss with
  | nil => rfl
  | cons s ss ih =>
      cases s with
      | nest c p =>
          simp only [childrenIn, parentsIn, List.filterMap_cons] at ih ⊢
          by_cases hc : c = child <;> by_cases hp : p = parent <;> simp_all
      | _ => exact ih

theorem pairwise_mergeSort (names : List String) : (names.mergeSort (· ≤ ·)).Pairwise (· ≤ ·) := by
  refine (List.pairwise_mergeSort ?_ ?_ names).imp of_decide_eq_true
  · simpa using fun _ _ _ => String.le_trans
  · simpa using String.le_total

/-! ### What is known of one name -/

namespace Entry

variable {e e' : Entry α}

/-- The parent and the children of the group; none where there is no group. -/
def kin (e : Entry α) : Option String × List String :=
  (e.group.bind (·.parent), (e.group.map (·.children)).getD [])

omit [Scalar α] in
theorem kin_change {f : AreaGroup α → AreaGroup α} (changed : e.change f = some e')
    (parent : ∀ g, (f g).parent = g.parent) (children : ∀ g, (f g).children = g.children) :
    e'.kin = e.kin := by
  obtain ⟨g, found, rfl⟩ := Option.map_eq_some_iff.mp changed
  simp [kin, found, parent, children]

/-- The kin of a group change by its nesting and by that of a child, and by nothing else. -/
inductive Follows (name : String) (kin : Option String × List String) :
    Statement α → Option String × List String → Prop where
  | same {s : Statement α} (apart : ∀ child parent, s = .nest child parent →
      child ≠ name ∧ parent ≠ name) : Follows name kin s kin
  | parent {parent : String} (other : parent ≠ name) (free : kin.1 = none) :
      Follows name kin (.nest name parent) (some parent, kin.2)
  | child {child : String} (other : child ≠ name) :
      Follows name kin (.nest child name) (kin.1, (kin.2 ++ [child]).mergeSort (· ≤ ·))

theorem follows_settle (about : s.subject? = some name) (settled : e.settle s = some e') :
    Follows name e.kin s e'.kin := by
  have unrelated (apart : ∀ child parent, s ≠ .nest child parent) (kept : e'.kin = e.kin) :
      Follows name e.kin s e'.kin :=
    kept ▸ .same fun child parent h => absurd h (apart child parent)
  cases s with
  | chip size => cases about
  | nest child parent =>
      obtain rfl : child = name := Option.some.inj about
      simp only [settle] at settled
      split at settled
      · cases settled
      · next different =>
        obtain ⟨g, found, settled⟩ := Option.bind_eq_some_iff.mp settled
        split at settled
        · cases settled
        · next free =>
          cases settled
          rw [Option.not_isSome_iff_eq_none] at free
          have kin : e.kin = (none, g.children) := by simp [Entry.kin, found, free]
          rw [kin]
          exact .parent (Ne.symm different) rfl
  | declare n path =>
      refine unrelated (by simp) ?_
      simp only [settle] at settled
      split at settled
      · cases settled
      · next undeclared =>
        cases settled
        rw [Option.not_isSome_iff_eq_none] at undeclared
        simp [kin, undeclared]
  | corner n upper x y =>
      refine unrelated (by simp) ?_
      simp only [settle] at settled
      split at settled
      · cases settled
        cases upper <;> rfl
      · cases settled
  | locate | size | area | «attribute» =>
      exact unrelated (by simp) (kin_change settled (fun _ => rfl) fun _ => rfl)

theorem follows_after (taken : e.after name s = some e') : Follows name e.kin s e'.kin := by
  unfold after at taken
  split at taken
  case isTrue about => exact follows_settle about taken
  case isFalse other =>
    split at taken
    case h_1 child parent =>
      have other : child ≠ name := fun same => other (congrArg some same)
      split at taken
      · next host =>
        subst host
        obtain ⟨g, found, rfl⟩ := Option.map_eq_some_iff.mp taken
        have step : Follows parent e.kin (.nest child parent : Statement α) _ := .child other
        simpa [kin, found, Draft.addChild] using step
      · next apart =>
        cases taken
        refine .same fun _ _ h => ?_
        cases h
        exact ⟨other, apart⟩
    case h_2 _ unrelated =>
      cases taken
      exact .same fun child parent h => absurd h (unrelated child parent)

/-- The kin are what the statements say: one parent at most, another group, and the children in name
order. -/
structure Kin (name : String) (ss : List (Statement α)) (kin : Option String × List String) :
    Prop where
  parent : parentsIn name ss = kin.1.toList
  other : name ∉ parentsIn name ss
  children : kin.2.Perm (childrenIn name ss)
  sorted : kin.2.Pairwise (· ≤ ·)

omit [Scalar α] in
theorem Kin.follow {kin kin' : Option String × List String} (known : Kin name ss kin)
    (follows : Follows name kin s kin') : Kin name (ss ++ [s]) kin' := by
  obtain ⟨parent, other, children, sorted⟩ := known
  cases follows with
  | same apart =>
      have unsaid : parentsIn name [s] = [] ∧ childrenIn name [s] = [] := by
        cases s <;> simp_all [parentsIn, childrenIn]
      have parents : parentsIn name (ss ++ [s]) = parentsIn name ss := by
        rw [parentsIn_append, unsaid.1, List.append_nil]
      have kids : childrenIn name (ss ++ [s]) = childrenIn name ss := by
        rw [childrenIn_append, unsaid.2, List.append_nil]
      exact ⟨parents ▸ parent, parents ▸ other, kids ▸ children, sorted⟩
  | @parent p different free =>
      have none : parentsIn name ss = [] := by rw [parent, free]; rfl
      have parents : parentsIn name (ss ++ [.nest name p]) = [p] := by
        rw [parentsIn_append, none]
        simp [parentsIn]
      have kids : childrenIn name (ss ++ [.nest name p]) = childrenIn name ss := by
        rw [childrenIn_append]
        simp [childrenIn, different]
      exact ⟨parents, by simp [parents, different.symm], kids ▸ children, sorted⟩
  | @child c different =>
      have parents : parentsIn name (ss ++ [.nest c name]) = parentsIn name ss := by
        rw [parentsIn_append]
        simp [parentsIn, different]
      have kids : childrenIn name (ss ++ [.nest c name]) = childrenIn name ss ++ [c] := by
        rw [childrenIn_append]
        simp [childrenIn]
      refine ⟨parents ▸ parent, parents ▸ other, ?_, ?_⟩
      · rw [kids]
        exact (List.mergeSort_perm _ _).trans (children.append_right _)
      · exact pairwise_mergeSort _

theorem kin_of_foldlM (run : ss.foldlM (after name) {} = some e) : Kin name ss e.kin := by
  induction ss using List.reverseRecOn generalizing e with
  | nil =>
      cases run
      exact ⟨rfl, by simp [parentsIn], .nil, .nil⟩
  | append_singleton ss s ih =>
      rw [List.foldlM_append] at run
      obtain ⟨e₁, front, last⟩ := Option.bind_eq_some_iff.mp run
      have last : after name e₁ s = some e := by simpa using last
      exact (ih front).follow (follows_after last)

/-- Placing a group between its corners leaves its kin. -/
theorem kin_finish {g : Option (AreaGroup α)} (finished : e.finish = some g) :
    e.kin = (g.bind (·.parent), (g.map (·.children)).getD []) := by
  unfold finish at finished
  split at finished
  · split at finished
    · cases finished
    · cases finished
      cases found : e.group <;> simp [kin, found, AreaGroup.place]
  · cases finished
    rfl
  · cases finished

end Entry

/-! ### The hierarchy of a file -/

variable {set : ConstraintSet α}

theorem Describes.kin (describes : Describes ss set) (name : String) :
    Entry.Kin name ss ((set.groups.find? name).bind (·.parent),
      ((set.groups.find? name).map (·.children)).getD []) := by
  obtain ⟨e, run, finished⟩ := Option.bind_eq_some_iff.mp (describes.groups name)
  exact Entry.kin_finish finished ▸ Entry.kin_of_foldlM run

omit [Scalar α] in
theorem nestedDeep?_eq_none : nestedDeep? set = none ↔
    ∀ g ∈ set.groups.values, g.parent = none ∨ g.children = [] := by
  unfold nestedDeep?
  rw [List.findSome?_eq_none_iff]
  refine forall₂_congr fun g _ => ?_
  cases g.parent <;> simp

end Constraint

/-- **Hierarchies are consistent.** In the set of a constraint file every group stands under its own
name; a group has a parent precisely if that is another group with the group among its children; the
children of a group are in name order without repetition; and no group has both a parent and
children. -/
theorem ConstraintSet.hierarchy_ofText {α : Type} [Scalar α] (source : String)
    (set : ConstraintSet α) (read : ConstraintSet.ofText source = .ok set) :
    AreaGroup.Hierarchy set.groups := by
  obtain ⟨ss, -, describes⟩ := Constraint.ofText_eq_ok_iff.mp read
  have parent_iff {c p : String} :
      .nest c p ∈ ss ↔ (set.groups.find? c).bind (·.parent) = some p := by
    rw [← Constraint.mem_parentsIn, (describes.kin c).parent, Option.mem_toList]
  have child_iff {c p : String} :
      .nest c p ∈ ss ↔ c ∈ ((set.groups.find? p).map (·.children)).getD [] := by
    rw [← Constraint.mem_childrenIn, (describes.kin p).children.mem_iff]
  constructor
  case keyed => exact ConstraintSet.keyed_ofText read
  case mirrored =>
    intro c g p found
    have nested : g.parent = some p ↔ .nest c p ∈ ss := by rw [parent_iff, found, Option.bind_some]
    rw [nested]
    constructor
    · intro nests
      have other : c ≠ p := by
        rintro rfl
        exact (describes.kin c).other (Constraint.mem_parentsIn.mpr nests)
      have listed := child_iff.mp nests
      cases host : set.groups.find? p with
      | none => simp [host] at listed
      | some h => exact ⟨other.symm, h, rfl, by simpa [host] using listed⟩
    · rintro ⟨-, h, host, listed⟩
      exact child_iff.mpr (by simpa [host] using listed)
  case declared =>
    intro p h host c listed
    have nests : .nest c p ∈ ss := child_iff.mpr (by simpa [host] using listed)
    obtain ⟨g, found, -⟩ := Option.bind_eq_some_iff.mp (parent_iff.mp nests)
    exact ⟨g, found⟩
  case ascending =>
    intro p h host
    have kin := describes.kin p
    rw [host] at kin
    have distinct : h.children.Nodup := by
      refine kin.children.nodup_iff.mpr (List.nodup_iff_count_le_one.mpr fun c => ?_)
      rw [Constraint.count_childrenIn, (describes.kin c).parent]
      refine Nat.le_trans List.count_le_length ?_
      cases (set.groups.find? c).bind (·.parent) <;> simp
    refine (kin.sorted.and (List.nodup_iff_pairwise_ne.mp distinct)).imp fun {a b} h => ?_
    exact (NameMap.lt_trichotomy a b).resolve_right fun h' =>
      h'.elim h.2 (String.not_lt.mpr h.1)
  case shallow =>
    intro name g found
    exact Constraint.nestedDeep?_eq_none.mp describes.shallow g
      (NameMap.mem_values_iff.mpr ⟨name, found⟩)

theorem ConstraintSet.not_own_child {α : Type} [Scalar α] {source : String} {set : ConstraintSet α}
    (read : ConstraintSet.ofText source = .ok set) {name : String} {g : AreaGroup α}
    (found : set.groups.find? name = some g) : name ∉ g.children := by
  obtain ⟨ss, -, describes⟩ := Constraint.ofText_eq_ok_iff.mp read
  have kin := describes.kin name
  rw [found] at kin
  intro own
  have nests : .nest name name ∈ ss := Constraint.mem_childrenIn.mp (kin.children.mem_iff.mp own)
  exact kin.other (Constraint.mem_parentsIn.mpr nests)

/-- Two groups inside one that has a keyword for its name. -/
def nestedSource : String :=
  "AREAGROUP user = None; AREAGROUP in = None; AREAGROUP dram = None;
   user in in; DIMENSION FPGA 100,100; dram in in; LOCATION user 50,50;"

theorem ConstraintSet.hierarchy_ofText_keyword : ∃ set : ConstraintSet Rat,
    ConstraintSet.ofText nestedSource = .ok set ∧
    (set.groups.find? "user").map (·.parent) = some (some "in") ∧
    (set.groups.find? "dram").map (·.parent) = some (some "in") ∧
    AreaGroup.Hierarchy set.groups := by
  have evaluated : (ConstraintSet.ofText (α := Rat) nestedSource).toOption.map (fun set =>
      ((set.groups.find? "user").map (·.parent), (set.groups.find? "dram").map (·.parent))) =
      some (some (some "in"), some (some "in")) := by decide +kernel
  obtain ⟨set, read, said⟩ := Option.map_eq_some_iff.mp evaluated
  rw [Prod.mk.injEq] at said
  have read := toOption_eq_some.mp read
  exact ⟨set, read, said.1, said.2, hierarchy_ofText nestedSource set read⟩

end HardwareLinker
