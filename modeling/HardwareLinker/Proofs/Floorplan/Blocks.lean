import HardwareLinker.Proofs.Floorplan.Linear

/-!
What each part of the model of a batch says, over exact numbers. A part is satisfied from the
variable on where its own variables begin; read together with the geometry of its groups, its rows
say that a child lies inside its parent, that two rectangles are apart, or that the distance
variables cover a distance. The converse gives the values of the part's own variables.
-/

namespace HardwareLinker

namespace Bounds

/-- One rectangle lies inside the other. -/
def Within (inner outer : Bounds Rat) : Prop :=
  outer.left ≤ inner.left ∧ inner.right ≤ outer.right ∧
    outer.bottom ≤ inner.bottom ∧ inner.top ≤ outer.top

/-- One of the rectangles is left of or below the other one. -/
def Separated (r s : Bounds Rat) : Prop :=
  r.right ≤ s.left ∨ s.right ≤ r.left ∨ r.top ≤ s.bottom ∨ s.top ≤ r.bottom

/-- The rectangle has a width and a height. -/
def Proper (r : Bounds Rat) : Prop := r.left < r.right ∧ r.bottom < r.top

instance (r s : Bounds Rat) : Decidable (r.Within s) := inferInstanceAs (Decidable (_ ∧ _ ∧ _ ∧ _))

instance (r s : Bounds Rat) : Decidable (r.Separated s) :=
  inferInstanceAs (Decidable (_ ∨ _ ∨ _ ∨ _))

instance (r : Bounds Rat) : Decidable r.Proper := inferInstanceAs (Decidable (_ ∧ _))

end Bounds

namespace Floorplan

open Milp

variable {a : Assignment Rat}

/-! ### Parts of a model -/

/-- From variable `first` on, the assignment gives these variables values that they allow. -/
def AllowsFrom (vars : List (Variable Rat)) (first : Nat) (a : Assignment Rat) : Prop :=
  EachFrom (fun v i => v.Allows (a.value i)) first vars

namespace Block

/-- The part holds if its variables begin at `first`. -/
structure HoldsAt (b : Block Rat) (first : Nat) (a : Assignment Rat) : Prop where
  vars : AllowsFrom b.vars first a
  rows : ∀ r ∈ b.rows, r.Holds a

/-- Values for its own variables make the part hold in every assignment that satisfies `P`. -/
def Solvable (b : Block Rat) (first : Nat) (P : Assignment Rat → Prop) : Prop :=
  ∃ values : List Rat, values.length = b.vars.length ∧
    ∀ a, P a → a.Lists first values → b.HoldsAt first a

/-- Values for its own variables make the part hold in every assignment that satisfies `P`, and add
`cost` to the objective. -/
def Attains (b : Block Rat) (first : Nat) (P : Assignment Rat → Prop) (cost : Rat) : Prop :=
  ∃ values : List Rat, values.length = b.vars.length ∧
    ∀ a, P a → a.Lists first values → b.HoldsAt first a ∧ b.objective.eval a = cost

variable {b c : Block Rat} {first : Nat} {P : Assignment Rat → Prop}

theorem holdsAt_iff :
    b.HoldsAt first a ↔ AllowsFrom b.vars first a ∧ ∀ r ∈ b.rows, r.Holds a :=
  ⟨fun h => ⟨h.vars, h.rows⟩, fun h => ⟨h.1, h.2⟩⟩

theorem holdsAt_append :
    (b.append c).HoldsAt first a ↔ b.HoldsAt first a ∧ c.HoldsAt (first + b.vars.length) a := by
  constructor
  · rintro ⟨vars, rows⟩
    obtain ⟨varsB, varsC⟩ := EachFrom.append.mp vars
    obtain ⟨rowsB, rowsC⟩ := List.forall_mem_append.mp rows
    exact ⟨⟨varsB, rowsB⟩, ⟨varsC, rowsC⟩⟩
  · rintro ⟨⟨varsB, rowsB⟩, ⟨varsC, rowsC⟩⟩
    exact ⟨EachFrom.append.mpr ⟨varsB, varsC⟩, List.forall_mem_append.mpr ⟨rowsB, rowsC⟩⟩

/-- A part without an objective costs nothing. -/
theorem Solvable.attains (h : b.Solvable first P) (free : b.objective = []) :
    b.Attains first P 0 := by
  obtain ⟨values, length, solves⟩ := h
  refine ⟨values, length, fun a ha lists => ⟨solves a ha lists, ?_⟩⟩
  rw [free, Terms.eval_nil]

theorem Attains.append {costB costC : Rat} (hb : b.Attains first P costB)
    (hc : c.Attains (first + b.vars.length) P costC) :
    (b.append c).Attains first P (costB + costC) := by
  obtain ⟨xs, hxs, attainsB⟩ := hb
  obtain ⟨ys, hys, attainsC⟩ := hc
  refine ⟨xs ++ ys, by simp [Block.append, hxs, hys], fun a ha lists => ?_⟩
  obtain ⟨listsB, listsC⟩ := EachFrom.append.mp lists
  rw [hxs] at listsC
  obtain ⟨holdsB, objectiveB⟩ := attainsB a ha listsB
  obtain ⟨holdsC, objectiveC⟩ := attainsC a ha listsC
  refine ⟨holdsAt_append.mpr ⟨holdsB, holdsC⟩, ?_⟩
  rw [Block.append, Terms.eval_append, objectiveB, objectiveC]

end Block

theorem feasible_addBlock {m : Model Rat} {b : Block Rat} :
    (addBlock m b).Feasible a ↔ m.Feasible a ∧ b.HoldsAt m.vars.size a := by
  have each (m : Model Rat) : m.Feasible a ↔
      AllowsFrom m.vars.toList 0 a ∧ ∀ r ∈ m.rows, r.Holds a := by
    have vars : AllowsFrom m.vars.toList 0 a ↔
        ∀ (i : Nat) (v : Variable Rat), m.vars[i]? = some v → v.Allows (a.value i) := by
      simp [AllowsFrom, EachFrom]
    rw [vars]
    exact ⟨fun h => ⟨h.vars, h.rows⟩, fun h => ⟨h.1, h.2⟩⟩
  have parts : AllowsFrom (m.vars.toList ++ b.vars) 0 a ↔
      AllowsFrom m.vars.toList 0 a ∧ AllowsFrom b.vars m.vars.size a := by
    rw [AllowsFrom, EachFrom.append, Array.length_toList, Nat.zero_add]
    rfl
  rw [each, each, addBlock, Array.toList_append, List.toList_toArray, parts, List.forall_mem_append]
  constructor
  · rintro ⟨⟨varsM, varsB⟩, rowsM, rowsB⟩
    exact ⟨⟨varsM, rowsM⟩, varsB, rowsB⟩
  · rintro ⟨⟨varsM, rowsM⟩, varsB, rowsB⟩
    exact ⟨⟨varsM, varsB⟩, rowsM, rowsB⟩

/-! ### Variables -/

theorem binary_allows {name : String} {x : Rat} : (binary name).Allows x ↔ x = 0 ∨ x = 1 := by
  change (true = true → x = 0 ∨ x = 1) ∧ 0 ≤ x ∧ (∀ upper ∈ some (1 : Rat), x ≤ upper) ↔ _
  constructor
  · intro h
    exact h.1 rfl
  · intro h
    refine ⟨fun _ => h, ?_⟩
    rcases h with rfl | rfl <;> simp

theorem continuous_allows {name : String} {lower upper x : Rat} :
    (continuous name lower upper).Allows x ↔ lower ≤ x ∧ x ≤ upper := by
  simp [continuous, Variable.Allows]

/-! ### Two groups -/

namespace Geometry

/-- The rectangle that the assignment gives the group. -/
def bounds (g : Geometry Rat) (a : Assignment Rat) : Bounds Rat :=
  ⟨g.centreX.eval a - g.halfWidth.eval a, g.centreY.eval a - g.halfHeight.eval a,
    g.centreX.eval a + g.halfWidth.eval a, g.centreY.eval a + g.halfHeight.eval a⟩

end Geometry

variable {tag : String} {first : Nat} {g h : Geometry Rat} {far weight : Rat}

theorem containChild_holdsAt {parent child : Geometry Rat} :
    (containChild tag parent child).HoldsAt first a ↔
      (child.bounds a).Within (parent.bounds a) := by
  simp only [Block.holdsAt_iff, containChild, AllowsFrom, EachFrom.nil, true_and,
    List.forall_mem_cons, List.not_mem_nil, false_imp_iff, implies_true, and_true,
    Linear.row_atLeast_holds, Linear.row_atMost_holds, Linear.eval_plus, Bounds.Within,
    Geometry.bounds]
  constructor
  · rintro ⟨left, right, bottom, top⟩
    refine ⟨?_, ?_, ?_, ?_⟩ <;> linarith
  · rintro ⟨left, right, bottom, top⟩
    refine ⟨?_, ?_, ?_, ?_⟩ <;> linarith

/-- What the rows of a separation say of its two binaries. -/
theorem separate_holdsAt : (separate tag first g h far).HoldsAt first a ↔
    ((a.value first = 0 ∨ a.value first = 1) ∧
      (a.value (first + 1) = 0 ∨ a.value (first + 1) = 1)) ∧
    (g.bounds a).right - (h.bounds a).left ≤ far * (a.value first + a.value (first + 1)) ∧
    (h.bounds a).right - (g.bounds a).left ≤ far * (1 - a.value first + a.value (first + 1)) ∧
    (g.bounds a).top - (h.bounds a).bottom ≤ far * (1 + a.value first - a.value (first + 1)) ∧
    (h.bounds a).top - (g.bounds a).bottom ≤ far * (2 - a.value first - a.value (first + 1)) := by
  simp only [Block.holdsAt_iff, separate, AllowsFrom, EachFrom.cons, EachFrom.nil, binary_allows,
    List.forall_mem_cons, List.not_mem_nil, false_imp_iff, implies_true, and_true,
    Linear.row_atMost_holds, reach, Linear.eval_plus, Linear.eval_plusVariable, Geometry.bounds]
  refine and_congr_right fun _ => ?_
  constructor
  · rintro ⟨right, left, above, below⟩
    norm_num at below
    refine ⟨?_, ?_, ?_, ?_⟩ <;> linarith
  · rintro ⟨right, left, above, below⟩
    refine ⟨?_, ?_, ?_, ?_⟩ <;> norm_num <;> linarith

theorem distance_holdsAt : (distance tag first g h weight far).HoldsAt first a ↔
    (a.value first ≤ far ∧ a.value (first + 1) ≤ far) ∧
    |g.centreX.eval a - h.centreX.eval a| ≤ a.value first ∧
    |g.centreY.eval a - h.centreY.eval a| ≤ a.value (first + 1) := by
  simp only [Block.holdsAt_iff, distance, AllowsFrom, EachFrom.cons, EachFrom.nil,
    continuous_allows, List.forall_mem_cons, List.not_mem_nil, false_imp_iff,
    implies_true, and_true, Linear.row_atLeast_holds, Linear.eval_plus,
    Linear.eval_ofVariable, abs_le]
  constructor
  · rintro ⟨⟨⟨-, dx⟩, -, dy⟩, right, left, above, below⟩
    refine ⟨⟨dx, dy⟩, ⟨?_, ?_⟩, ?_, ?_⟩ <;> linarith
  · rintro ⟨⟨dx, dy⟩, ⟨left, right⟩, below, above⟩
    refine ⟨⟨⟨?_, dx⟩, ?_, dy⟩, ?_, ?_, ?_, ?_⟩ <;> linarith

end Floorplan
end HardwareLinker
