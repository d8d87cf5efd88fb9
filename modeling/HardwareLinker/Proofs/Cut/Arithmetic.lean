import HardwareLinker.Cut.Flow
import HardwareLinker.Proofs.Binary64

/-!
What augmenting paths need of the arithmetic: the smaller of two numbers is one of them, and nothing
is left of a number that is taken from itself. Exact rationals have both properties, and so have
binary64 numbers, also where the operand is infinite or no number at all.
-/

namespace HardwareLinker

/-- The bottleneck of a path is the capacity of one of its steps, and using a step up leaves no
capacity that counts. -/
class Scalar.Cancelling (α : Type) [Scalar α] : Prop where
  smaller_eq : ∀ a b : α, smaller a b = a ∨ smaller a b = b
  not_lt_sub_self : ∀ a : α, ¬ Capacities.tolerance < a - a

instance : Scalar.Cancelling Rat where
  smaller_eq a b := by
    show (if b < a then b else a) = a ∨ (if b < a then b else a) = b
    split
    · exact .inr rfl
    · exact .inl rfl
  not_lt_sub_self a := by
    show ¬ (Capacities.tolerance : Rat) < a - a
    rw [Rat.sub_self]
    decide +kernel

instance : Scalar.Cancelling Binary64 where
  smaller_eq a b := by
    show (if a.isNaN then b else if b.isNaN then a else if b < a then b else a) = a ∨
      (if a.isNaN then b else if b.isNaN then a else if b < a then b else a) = b
    split
    · exact .inr rfl
    · split
      · exact .inl rfl
      · split
        · exact .inr rfl
        · exact .inl rfl
  not_lt_sub_self a := by
    rcases Binary64.sub_self a with h | h
    · exact Binary64.not_lt_of_isNaN h
    · rw [h]
      decide +kernel

end HardwareLinker
