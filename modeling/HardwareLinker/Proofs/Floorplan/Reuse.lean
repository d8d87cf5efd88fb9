import HardwareLinker.Proofs.Binary64.Signs
import HardwareLinker.Scalar

/-!
An area that has not changed is within any tolerance. Over the rationals its difference is zero and
the bound is not negative; over binary64 the same holds of finite areas, because a product of
numbers that are not negative is neither negative nor no number.
-/

namespace HardwareLinker
namespace Binary64

open Float.Model

/-- What is positive and finite has a positive mantissa. -/
theorem exists_parts {a : Binary64} (finite : a.isFinite = true) (positive : ¬ a ≤ 0) :
    ∃ m e hm, a.parts = .finite .positive m e hm := by
  obtain ⟨s, signed, bounded⟩ := (bounded_of_isFinite finite).repack
  rw [← parts_eq] at signed bounded
  rw [le_iff] at positive
  cases s with
  | negative =>
      exfalso
      apply positive
      cases same : a.parts <;> rw [same] at signed <;> cases signed <;> rfl
  | positive =>
      cases same : a.parts with
      | notANumber => rw [same] at signed; cases signed
      | infinity s => rw [same] at signed bounded; cases signed; exact absurd rfl bounded
      | zero s =>
          exfalso
          apply positive
          rw [same]
          rfl
      | finite s m e hm => rw [same] at signed; cases signed; exact ⟨m, e, hm, rfl⟩

/-- What is not below zero has no negative sign, unless it is zero. -/
theorem signed_of_nonneg {u : UnpackedFloat} (nonneg : (UnpackedFloat.zero .positive).le u = true) :
    u = .zero .negative ∨ Signed .positive u := by
  cases u with
  | notANumber => cases nonneg
  | infinity s =>
      cases s with
      | positive => exact .inr .infinity
      | negative => cases nonneg
  | zero s =>
      cases s with
      | positive => exact .inr .zero
      | negative => exact .inl rfl
  | finite s m e hm =>
      cases s with
      | positive => exact .inr (.finite m e hm)
      | negative => cases nonneg

theorem Signed.nonneg {u : UnpackedFloat} (signed : Signed .positive u) :
    (UnpackedFloat.zero .positive).le u = true := by
  cases signed <;> rfl

theorem Signed.mul {u : UnpackedFloat} {m : Nat} {e : Int} {hm : 0 < m}
    (signed : Signed .positive u) :
    Signed .positive (UnpackedFloat.mul .binary64 u (.finite .positive m e hm)) := by
  cases signed with
  | infinity => exact .infinity
  | zero => exact .zero
  | finite => exact signed_round ..

theorem mul_nonneg {t a : Binary64} {m : Nat} {e : Int} {hm : 0 < m} (nonneg : 0 ≤ t)
    (parts : a.parts = .finite .positive m e hm) : 0 ≤ t * a := by
  have number : a.isNaN = false := not_isNaN_of_signed (parts ▸ Signed.finite m e hm)
  rw [le_iff] at nonneg ⊢
  change (UnpackedFloat.zero .positive).le (t * a).parts = true
  rcases signed_of_nonneg nonneg with zero | signed
  · have product : UnpackedFloat.mul .binary64 t.parts a.parts = .zero .negative := by
      rw [zero, parts]
      rfl
    have read : (t * a).parts = _ := parts_combine (fun _ _ => rfl)
      (not_isNaN_of_signed (zero ▸ Signed.zero)) number (product ▸ Signed.zero)
    rw [read, product, repacked_zero, repacked_zero]
    rfl
  · have product : Signed .positive (UnpackedFloat.mul .binary64 t.parts a.parts) :=
      parts ▸ signed.mul
    have read : Signed .positive (t * a).parts :=
      signed_combine (fun _ _ => rfl) (not_isNaN_of_signed signed) number product
    exact read.nonneg

end Binary64

/-- An area that has not changed is within any tolerance. -/
class Scalar.Reusing (α : Type) [Scalar α] : Prop where
  within : ∀ tolerance area : α, 0 ≤ tolerance → isFinite area = true → ¬ area ≤ 0 →
    abs (area - area) ≤ tolerance * area

instance : Scalar.Reusing Rat where
  within tolerance area nonneg _ positive := by
    change (area - area).abs ≤ tolerance * area
    rw [Rat.sub_self, Rat.abs_zero]
    exact Rat.mul_nonneg nonneg (Rat.le_of_lt (Rat.not_le.mp positive))

instance : Scalar.Reusing Binary64 where
  within tolerance area nonneg finite positive := by
    obtain ⟨m, e, hm, parts⟩ := Binary64.exists_parts finite positive
    change (area - area).abs ≤ tolerance * area
    rw [Binary64.sub_self_of_parts parts]
    exact Binary64.mul_nonneg nonneg parts

end HardwareLinker
