import Mathlib.Algebra.BigOperators.Group.List.Basic
import Mathlib.Algebra.Order.Ring.Rat
import HardwareLinker.Traffic
import HardwareLinker.Proofs.NameMap

/-!
Traffic tables over exact numbers. A table keeps one weight for each unordered pair of names, so
what it reports for a pair is the sum of all that was added for the pair, whichever way round.
-/

namespace HardwareLinker.TrafficTable

theorem key_comm (a b : String) : key a b = key b a := by
  unfold key
  by_cases hab : a ≤ b
  · by_cases hba : b ≤ a
    · rw [String.le_antisymm hab hba]
    · simp [hab, hba]
  · have hba : b ≤ a := (String.le_total a b).resolve_left hab
    simp [hab, hba]

theorem key_eq_iff {a b x y : String} :
    key x y = key a b ↔ x = a ∧ y = b ∨ x = b ∧ y = a := by
  constructor
  · intro h
    unfold key at h
    split at h <;> split at h <;> simp_all
  · intro h
    cases h with
    | inl h => rw [h.1, h.2]
    | inr h => rw [h.1, h.2, key_comm]

theorem traffic_comm {α : Type} [Scalar α] (t : TrafficTable α) (a b : String) :
    t.traffic a b = t.traffic b a := by
  unfold traffic
  rw [key_comm]

/-- What one weight adds to a pair. -/
def share (a b : String) (e : String × String × Rat) : Rat :=
  if e.1 = a ∧ e.2.1 = b ∨ e.1 = b ∧ e.2.1 = a then e.2.2 else 0

theorem traffic_add (t : TrafficTable Rat) {a b : String} (hab : a ≠ b)
    (e : String × String × Rat) :
    (t.add e.1 e.2.1 e.2.2).traffic a b = t.traffic a b + share a b e := by
  obtain ⟨x, y, w⟩ := e
  by_cases hxy : x = y
  · subst hxy
    have other : ¬ (x = a ∧ x = b ∨ x = b ∧ x = a) := by
      intro h
      cases h with
      | inl h => exact hab (h.1.symm.trans h.2)
      | inr h => exact hab (h.2.symm.trans h.1)
    simp [add, share, other]
  · simp only [add, hxy, if_false, share, ← key_eq_iff]
    by_cases hk : key x y = key a b
    · simp only [traffic, hk, NameMap.find?_insert, if_true, Option.bind_some, Option.getD_some]
      cases t.weights.find? (key a b).1 with
      | none => simp [NameMap.find?, NameMap.empty]
      | some row => simp
    · simp only [traffic, NameMap.find?_insert, hk, if_false, add_zero]
      by_cases hrow : (key a b).1 = (key x y).1
      · have hcell : (key a b).2 ≠ (key x y).2 := fun h => hk (Prod.ext hrow h).symm
        simp only [hrow, if_true, Option.bind_some, NameMap.find?_insert, hcell, if_false]
        cases t.weights.find? (key x y).1 with
        | none => simp [NameMap.find?, NameMap.empty]
        | some row => simp
      · simp [hrow]

theorem traffic_addAll (edges : List (String × String × Rat)) (t : TrafficTable Rat) {a b : String}
    (hab : a ≠ b) :
    (edges.foldl (fun t (x, y, w) => t.add x y w) t).traffic a b =
      t.traffic a b + (edges.map (share a b)).sum := by
  induction edges generalizing t with
  | nil => simp
  | cons e rest ih =>
      rw [List.foldl_cons, ih, traffic_add t hab e, List.map_cons, List.sum_cons, add_assoc]

theorem traffic_ofGraph (g : Graph Rat) {a b : String} (hab : a ≠ b) :
    (ofGraph g).traffic a b = (g.edges.map (share a b)).sum := by
  unfold ofGraph
  rw [traffic_addAll g.edges .empty hab]
  simp [traffic, empty, NameMap.find?, NameMap.empty]

end HardwareLinker.TrafficTable
