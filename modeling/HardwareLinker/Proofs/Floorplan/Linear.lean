import HardwareLinker.Proofs.Milp.Feasible
import HardwareLinker.Floorplan.Batch

/-!
The value of a linear expression under an assignment, and what a row that bounds one says. Where
binaries select one size, half the extent is half of the selected one.
-/

namespace HardwareLinker

/-- Each item stands in the relation to its position, counted from `first`. -/
def EachFrom {β : Type} (R : β → Nat → Prop) (first : Nat) (l : List β) : Prop :=
  ∀ k x, l[k]? = some x → R x (first + k)

namespace EachFrom

variable {β : Type} {R : β → Nat → Prop} {first : Nat} {x : β} {xs ys : List β}

theorem nil : EachFrom R first [] := by
  intro k x hx
  simp at hx

theorem append :
    EachFrom R first (xs ++ ys) ↔ EachFrom R first xs ∧ EachFrom R (first + xs.length) ys := by
  constructor
  · intro h
    refine ⟨fun k x hx => h k x ?_, fun k x hx => ?_⟩
    · obtain ⟨hk, -⟩ := List.getElem?_eq_some_iff.mp hx
      rwa [List.getElem?_append_left hk]
    · rw [Nat.add_assoc]
      exact h _ x
        (by rwa [List.getElem?_append_right (Nat.le_add_right ..), Nat.add_sub_cancel_left])
  · rintro ⟨front, back⟩ k x hx
    rcases Nat.lt_or_ge k xs.length with hk | hk
    · exact front k x (by rwa [List.getElem?_append_left hk] at hx)
    · rw [List.getElem?_append_right hk] at hx
      have := back _ x hx
      rwa [Nat.add_assoc, Nat.add_sub_cancel' hk] at this

theorem singleton : EachFrom R first [x] ↔ R x first := by
  constructor
  · intro h
    exact h 0 x rfl
  · intro h k y hy
    obtain ⟨rfl, rfl⟩ : k = 0 ∧ x = y := by
      cases k <;> simp_all
    exact h

theorem cons : EachFrom R first (x :: xs) ↔ R x first ∧ EachFrom R (first + 1) xs := by
  rw [← List.singleton_append, append, singleton, List.length_singleton]

end EachFrom

/-- From variable `first` on, the assignment has these values. -/
def Milp.Assignment.Lists (a : Milp.Assignment Rat) (first : Nat) (values : List Rat) : Prop :=
  EachFrom (fun x i => a.value i = x) first values

theorem Milp.Assignment.lists_toArray (values : List Rat) :
    Milp.Assignment.Lists values.toArray 0 values := by
  intro k x hx
  simp [Milp.Assignment.value, Array.getD_eq_getD_getElem?, hx]

namespace Floorplan

open Milp

variable {a : Assignment Rat}

namespace Linear

/-- The value of the expression. -/
def eval (l : Linear Rat) (a : Assignment Rat) : Rat := l.terms.eval a + l.constant

@[simp] theorem eval_ofConstant (c : Rat) : (ofConstant c).eval a = c := by
  simp [eval, ofConstant]

@[simp] theorem eval_ofVariable (v : Nat) : (ofVariable v : Linear Rat).eval a = a.value v := by
  simp [eval, ofVariable]

@[simp] theorem eval_plus (l m : Linear Rat) (k : Rat) :
    (l.plus k m).eval a = l.eval a + k * m.eval a := by
  simp only [eval, plus, Terms.eval_append, Terms.eval_scaled]
  ring

@[simp] theorem eval_plusVariable (l : Linear Rat) (k : Rat) (v : Nat) :
    (l.plusVariable k v).eval a = l.eval a + k * a.value v := by
  simp only [eval, plusVariable, Terms.eval_append, Terms.eval_cons, Terms.eval_nil]
  ring

variable {l : Linear Rat} {name : String} {bound : Rat}

@[simp] theorem row_atMost_holds : (l.row name .atMost bound).Holds a ↔ l.eval a ≤ bound :=
  le_sub_iff_add_le

@[simp] theorem row_atLeast_holds : (l.row name .atLeast bound).Holds a ↔ bound ≤ l.eval a :=
  sub_le_iff_le_add

end Linear

/-! ### One size selected -/

/-- A sum over candidates in which only the one at position `i` counts. -/
theorem sum_selected {β : Type} (f : β → Rat) (l : List β) (n i : Nat) (hi : i < l.length) :
    ((l.zipIdx n).map fun e => f e.1 * if e.2 = n + i then 1 else 0).sum = f l[i] := by
  induction l generalizing n i with
  | nil => simp at hi
  | cons s l ih =>
      rw [List.zipIdx_cons, List.map_cons, List.sum_cons]
      cases i with
      | zero =>
          have later :
              ((l.zipIdx (n + 1)).map fun e => f e.1 * if e.2 = n + 0 then 1 else 0).sum = 0 := by
            refine List.sum_eq_zero fun y hy => ?_
            obtain ⟨e, he, rfl⟩ := List.mem_map.mp hy
            have := List.le_snd_of_mem_zipIdx he
            rw [if_neg (by omega), mul_zero]
          rw [later]
          simp
      | succ i =>
          have rest := ih (n + 1) i (by simpa using hi)
          rw [show n + 1 + i = n + (i + 1) by omega] at rest
          rw [if_neg (by simp), mul_zero, zero_add, rest]
          rfl

theorem eval_halfExtent (extent : Size Rat → Rat) (sizes : List (Nat × Size Rat)) :
    (halfExtent extent sizes).eval a = (sizes.map fun (v, s) => extent s / 2 * a.value v).sum := by
  have add (l : Linear Rat) :
      (sizes.foldl (fun l (v, s) => l.plusVariable (extent s / 2.0) v) l).eval a =
      l.eval a + (sizes.map fun (v, s) => extent s / 2 * a.value v).sum := by
    induction sizes generalizing l with
    | nil => simp
    | cons e sizes ih =>
        rw [List.foldl_cons, ih, Linear.eval_plusVariable, List.map_cons, List.sum_cons, add_assoc]
        norm_num
  rw [halfExtent, add, Linear.eval_ofConstant]
  exact zero_add _

end Floorplan
end HardwareLinker
