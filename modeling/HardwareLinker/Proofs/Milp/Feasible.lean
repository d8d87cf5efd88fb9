import Mathlib.Algebra.BigOperators.Group.List.Basic
import Mathlib.Algebra.Order.Ring.Rat
import Mathlib.Tactic.Linarith
import Mathlib.Tactic.Ring
import HardwareLinker.Milp.Model

/-!
Assignments that a model admits, over exact numbers: every variable within its bounds, binaries
zero or one, and every row satisfied. That is what a violation of zero says of bounds and rows.
-/

namespace HardwareLinker

/-- Over the rationals a sum is a sum. -/
theorem Scalar.sum_eq (xs : List Rat) : Scalar.sum xs = xs.sum := by
  change xs.foldl (· + ·) (-0) = xs.sum
  rw [neg_zero, List.sum_eq_foldl]

namespace Milp

variable {a : Assignment Rat}

@[simp] theorem Terms.eval_nil : Terms.eval ([] : Terms Rat) a = 0 := by
  simp [Terms.eval, Scalar.sum_eq]

@[simp] theorem Terms.eval_cons (v : Nat) (c : Rat) (t : Terms Rat) :
    Terms.eval ((v, c) :: t) a = c * a.value v + Terms.eval t a := by
  simp [Terms.eval, Scalar.sum_eq]

@[simp] theorem Terms.eval_append (s t : Terms Rat) :
    Terms.eval (s ++ t) a = Terms.eval s a + Terms.eval t a := by
  simp [Terms.eval, Scalar.sum_eq]

/-- Multiplying every coefficient multiplies the sum. -/
theorem Terms.eval_scaled (k : Rat) (t : Terms Rat) :
    Terms.eval (t.map fun (v, c) => (v, c * k)) a = k * Terms.eval t a := by
  induction t with
  | nil => simp
  | cons e t ih =>
      rw [List.map_cons, eval_cons, eval_cons, ih]
      ring

/-- The values that a variable may take. -/
def Variable.Allows (v : Variable Rat) (x : Rat) : Prop :=
  (v.binary = true → x = 0 ∨ x = 1) ∧ v.lower ≤ x ∧ ∀ upper ∈ v.upper, x ≤ upper

/-- The assignment satisfies the row. -/
def Row.Holds (r : Row Rat) (a : Assignment Rat) : Prop :=
  match r.sense with
  | .atMost => r.terms.eval a ≤ r.bound
  | .atLeast => r.bound ≤ r.terms.eval a
  | .equal => r.terms.eval a = r.bound

/-- An assignment that the model admits. -/
structure Model.Feasible (m : Model Rat) (a : Assignment Rat) : Prop where
  vars : ∀ (i : Nat) (v : Variable Rat), m.vars[i]? = some v → v.Allows (a.value i)
  rows : ∀ r ∈ m.rows, r.Holds a

/-! ### The violation that the program measures -/

theorem greater_eq_max (x y : Rat) : Scalar.greater x y = max x y := by
  change (if x < y then y else x) = max x y
  rw [max_def_lt]

theorem le_foldl_greater (start : Rat) (gaps : List Rat) :
    start ≤ gaps.foldl Scalar.greater start := by
  induction gaps generalizing start with
  | nil => exact le_refl start
  | cons gap gaps ih =>
      rw [List.foldl_cons, greater_eq_max]
      exact (le_max_left start gap).trans (ih _)

theorem foldl_greater_eq_iff {start : Rat} {gaps : List Rat} :
    gaps.foldl Scalar.greater start = start ↔ ∀ gap ∈ gaps, gap ≤ start := by
  induction gaps with
  | nil => simp
  | cons gap gaps ih =>
      rw [List.foldl_cons, greater_eq_max, List.forall_mem_cons]
      rcases le_or_gt gap start with le | lt
      · rw [max_eq_left le, ih, and_iff_right le]
      · rw [max_eq_right lt.le]
        constructor
        · intro h
          exact absurd (h ▸ le_foldl_greater gap gaps) lt.not_ge
        · intro h
          exact absurd h.1 lt.not_ge

theorem Row.gap_le_zero {r : Row Rat} : r.gap a ≤ 0 ↔ r.Holds a := by
  unfold gap Holds
  cases r.sense with
  | atMost => exact sub_nonpos
  | atLeast => exact sub_nonpos
  | equal =>
      change Rat.abs (r.terms.eval a - r.bound) ≤ 0 ↔ r.terms.eval a = r.bound
      rw [← sub_eq_zero, ← Rat.abs_eq_zero_iff]
      exact ⟨fun le => le_antisymm le Rat.abs_nonneg, le_of_eq⟩

theorem boundGaps_le_zero {v : Variable Rat} {x : Rat} :
    (∀ gap ∈ Model.boundGaps v x, gap ≤ 0) ↔ v.lower ≤ x ∧ ∀ upper ∈ v.upper, x ≤ upper := by
  unfold Model.boundGaps
  cases v.upper <;> simp

/-- A model admits an assignment if nothing is violated and binaries are zero or one. -/
theorem Model.feasible_iff {m : Model Rat} :
    m.Feasible a ↔ m.violation a = 0 ∧
      ∀ (i : Nat) (v : Variable Rat), m.vars[i]? = some v → v.binary = true →
        a.value i = 0 ∨ a.value i = 1 := by
  have bounds :
      (∀ gap ∈ m.vars.toList.zipIdx.flatMap fun (v, i) => boundGaps v (a.value i), gap ≤ 0) ↔
      ∀ (i : Nat) (v : Variable Rat), m.vars[i]? = some v →
        v.lower ≤ a.value i ∧ ∀ upper ∈ v.upper, a.value i ≤ upper := by
    simp only [← boundGaps_le_zero, List.mem_flatMap, Prod.exists, List.mem_zipIdx_iff_getElem?,
      Array.getElem?_toList]
    exact ⟨fun h i v hv gap hgap => h gap ⟨v, i, hv, hgap⟩,
      fun h gap ⟨v, i, hv, hgap⟩ => h i v hv gap hgap⟩
  have rows : (∀ gap ∈ m.rows.map (·.gap a), gap ≤ 0) ↔ ∀ r ∈ m.rows, r.Holds a := by
    simp only [List.forall_mem_map, Row.gap_le_zero]
  rw [violation, foldl_greater_eq_iff, List.forall_mem_append, bounds, rows]
  constructor
  · intro h
    exact ⟨⟨fun i v hv => (h.vars i v hv).2, h.rows⟩, fun i v hv => (h.vars i v hv).1⟩
  · rintro ⟨⟨within, rows⟩, integral⟩
    exact ⟨fun i v hv => ⟨integral i v hv, within i v hv⟩, rows⟩

end Milp
end HardwareLinker
