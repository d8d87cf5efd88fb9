import Mathlib.Algebra.Order.Monoid.Prod
import HardwareLinker.Proofs.Binary64.Signs
import HardwareLinker.Scalar

/-!
The order of binary64 numbers. A comparison goes by the sign, then by the exponent, then by the
mantissa; read as a key that is a linear order, which negation turns around. What is under a square
root in a distance is no difference of infinities, so that distances and their sums are ordered.
-/

namespace HardwareLinker.Binary64

open Float.Model

/-! ### Keys -/

/-- Where a number stands among the others: by its sign and whether it is finite, then by its
exponent, then by its mantissa. -/
def key : UnpackedFloat → ℤ ×ₗ ℤ ×ₗ ℤ
  | .notANumber => 0
  | .infinity s => toLex (s.apply 2, 0)
  | .zero _ => 0
  | .finite s m e _ => toLex (s.apply 1, toLex (s.apply e, s.apply m))

theorem key_finite (s : UnpackedFloat.Sign) (m : Nat) (e : Int) (positive : 0 < m) :
    key (.finite s m e positive) = toLex (s.apply 1, toLex (s.apply e, s.apply m)) := rfl

theorem key_neg (u : UnpackedFloat) : key u.neg = -key u := by
  cases u with
  | notANumber => rfl
  | zero s => rfl
  | infinity s => cases s <;> rfl
  | finite s m e hm =>
      cases s with
      | positive => rfl
      | negative =>
          change toLex ((1 : ℤ), toLex (e, (m : ℤ))) = -toLex ((-1 : ℤ), toLex (-e, -(m : ℤ)))
          simp [← toLex_neg]

theorem compare_toLex (a a' b b' c c' : ℤ) :
    compare (toLex (a, toLex (b, c))) (toLex (a', toLex (b', c'))) =
      (compare a a').then ((compare b b').then (compare c c')) := by
  rw [Prod.Lex.compare_def]
  simp only [compareLex, compareOn, Prod.Lex.compare_def]
  rfl

theorem compare_neg_neg (a b : ℤ) : compare (-a) (-b) = (compare a b).swap := by
  rw [← Std.OrientedCmp.eq_swap]
  exact compare_congr neg_lt_neg_iff neg_lt_neg_iff

theorem compare_cast (m n : Nat) : compare (m : ℤ) n = compare m n :=
  compare_congr Nat.cast_lt Nat.cast_lt

theorem compare_eq {u v : UnpackedFloat} (left : u.isNaN = false) (right : v.isNaN = false) :
    u.compare v = some (compare (key u) (key v)) := by
  cases u with
  | notANumber => cases left
  | infinity s =>
      cases v with
      | notANumber => cases right
      | infinity t => cases s <;> cases t <;> rfl
      | zero t => cases s <;> rfl
      | finite t m e hm => cases s <;> cases t <;> rfl
  | zero s =>
      cases v with
      | notANumber => cases right
      | infinity t => cases t <;> rfl
      | zero t => rfl
      | finite t m e hm => cases t <;> rfl
  | finite s m e hm =>
      cases v with
      | notANumber => cases right
      | infinity t => cases s <;> cases t <;> rfl
      | zero t => cases s <;> rfl
      | finite t m' e' hm' =>
          rw [key_finite, key_finite, compare_toLex]
          cases s <;> cases t
          · change some ((compare e e').then (compare m m')).swap =
              some ((compare (-e) (-e')).then (compare (-(m : ℤ)) (-m')))
            rw [compare_neg_neg, compare_neg_neg, compare_cast, Ordering.swap_then]
          · rfl
          · rfl
          · change some ((compare e e').then (compare m m')) =
              some ((compare e e').then (compare (m : ℤ) m'))
            rw [compare_cast]

theorem isNaN_parts {x : Binary64} (number : x.isNaN = false) : x.parts.isNaN = false := by
  obtain ⟨s, signed⟩ := exists_signed number
  exact signed.isNaN_eq

theorem lt_iff_key {x y : Binary64} (left : x.isNaN = false) (right : y.isNaN = false) :
    x < y ↔ key x.parts < key y.parts := by
  rw [lt_iff, UnpackedFloat.lt, compare_eq (isNaN_parts left) (isNaN_parts right), beq_iff_eq,
    Option.some_inj, compare_lt_iff_lt]

theorem le_iff_key {x y : Binary64} (left : x.isNaN = false) (right : y.isNaN = false) :
    x ≤ y ↔ key x.parts ≤ key y.parts := by
  rw [le_iff, UnpackedFloat.le, compare_eq (isNaN_parts left) (isNaN_parts right), Option.any_some,
    Ordering.isLE_iff_ne_gt]
  exact compare_le_iff_le

/-! ### Negation -/

theorem ofFields_neg (s : UnpackedFloat.Sign) (e : BitVec 11) (m : BitVec 52) :
    ofFields (-s) e m = (ofFields s e m).neg := by
  rw [ofFields, ofFields, apply_ite UnpackedFloat.neg, apply_ite UnpackedFloat.neg,
    apply_ite UnpackedFloat.neg, apply_dite UnpackedFloat.neg]
  rfl

theorem unpack_packComponents_neg (s : UnpackedFloat.Sign) (e : BitVec 11) (m : BitVec 52) :
    UnpackedFloat.unpack .binary64 (UnpackedFloat.packComponents .binary64 (-s) e m) =
      (UnpackedFloat.unpack .binary64 (UnpackedFloat.packComponents .binary64 s e m)).neg := by
  rw [unpack_packComponents, unpack_packComponents, ofFields_neg]

theorem repacked_neg (u : UnpackedFloat) : repacked u.neg = (repacked u).neg := by
  cases u with
  | notANumber => rfl
  | zero s => exact unpack_packComponents_neg ..
  | infinity s => exact unpack_packComponents_neg ..
  | finite s m e hm =>
      change repacked (.finite (-s) m e hm) = _
      rw [repacked, repacked, pack_finite, pack_finite]
      split
      · exact unpack_packComponents_neg ..
      · split <;> exact unpack_packComponents_neg ..

/-- The negative has the same bits but for the first, which is the sign. -/
theorem unpack_neg (x : Binary64) : UnpackedFloat.unpack .binary64 (-x).bits.toBitVec =
    (UnpackedFloat.unpack .binary64 x.bits.toBitVec).neg := by
  have bits : (-x).bits.toBitVec = x.bits.toBitVec ^^^ BitVec.twoPow 64 63 := by
    rw [← toBitVec_signBit]
    rfl
  have others {i : Nat} (h : i < 63) :
      (-x).bits.toBitVec.getLsbD i = x.bits.toBitVec.getLsbD i := by
    have outside : (BitVec.twoPow 64 63).getLsbD i = false := by simp [BitVec.getLsbD_twoPow]; omega
    rw [bits, BitVec.getLsbD_xor, outside, Bool.xor_false]
  have exponent : @UnpackedFloat.unpackExponent .binary64 (-x).bits.toBitVec =
      @UnpackedFloat.unpackExponent .binary64 x.bits.toBitVec := by
    apply BitVec.eq_of_getLsbD_eq
    intro i h
    change i < 11 at h
    simp [UnpackedFloat.unpackExponent, others (show 52 + i < 63 by omega)]
  have mantissa : @UnpackedFloat.unpackMantissa .binary64 (-x).bits.toBitVec =
      @UnpackedFloat.unpackMantissa .binary64 x.bits.toBitVec := by
    apply BitVec.eq_of_getLsbD_eq
    intro i h
    change i < 52 at h
    simp [UnpackedFloat.unpackMantissa, others (show i < 63 by omega)]
  have sign : UnpackedFloat.Sign.ofBitVec (@UnpackedFloat.unpackSign .binary64 (-x).bits.toBitVec) =
      -UnpackedFloat.Sign.ofBitVec (@UnpackedFloat.unpackSign .binary64 x.bits.toBitVec) := by
    have turned : (-x).isNegative = !x.isNegative := by
      rw [isNegative_eq, isNegative_eq, bits]
      simp
    rw [sign_eq, sign_eq, sign, sign, turned]
    cases x.isNegative <;> rfl
  rw [unpack_eq, unpack_eq, exponent, mantissa, sign, ofFields_neg]

theorem parts_neg (x : Binary64) : (-x).parts = x.parts.neg := by
  rw [parts_eq, parts_eq, unpack_neg, repacked_neg]

theorem Signed.neg {s : UnpackedFloat.Sign} {u : UnpackedFloat} (signed : Signed s u) :
    Signed (-s) u.neg := by
  cases signed with
  | infinity => exact .infinity
  | zero => exact .zero
  | finite m e hm => exact .finite m e hm

theorem isNaN_neg {x : Binary64} (number : x.isNaN = false) : (-x).isNaN = false := by
  obtain ⟨s, signed⟩ := exists_signed number
  refine not_isNaN_of_signed (s := -s) ?_
  rw [parts_neg]
  exact signed.neg

/-! ### The order of numbers -/

theorem neg_lt_neg {x y : Binary64} (left : x.isNaN = false) (right : y.isNaN = false) :
    -x < -y ↔ ¬ x ≤ y := by
  rw [lt_iff_key (isNaN_neg left) (isNaN_neg right), parts_neg, parts_neg, key_neg, key_neg,
    neg_lt_neg_iff, le_iff_key left right, not_le]

theorem le_total {x y : Binary64} (left : x.isNaN = false) (right : y.isNaN = false) :
    x ≤ y ∨ y ≤ x := by
  rw [le_iff_key left right, le_iff_key right left]
  exact LinearOrder.le_total _ _

theorem le_trans {x y z : Binary64} (left : x.isNaN = false) (middle : y.isNaN = false)
    (right : z.isNaN = false) (lower : x ≤ y) (upper : y ≤ z) : x ≤ z := by
  rw [le_iff_key left middle] at lower
  rw [le_iff_key middle right] at upper
  rw [le_iff_key left right]
  exact lower.trans upper

/-! ### Differences, squares, sums and roots -/

theorem unpacked_sub_eq (u v : UnpackedFloat) :
    UnpackedFloat.sub .binary64 u v = UnpackedFloat.add .binary64 u v.neg := by
  cases u with
  | notANumber => rfl
  | infinity s => cases v <;> rfl
  | zero s => cases v <;> rfl
  | finite s m e hm =>
      cases v with
      | notANumber => rfl
      | infinity t => rfl
      | zero t => rfl
      | finite t m' e' hm' =>
          have apply_neg (n : ℤ) : (-t).apply n = -t.apply n := by
            cases t with
            | positive => rfl
            | negative => exact (neg_neg n).symm
          change UnpackedFloat.normalize _ (s.apply _ - t.apply _) _ _ =
            UnpackedFloat.normalize _ (s.apply _ + (-t).apply _) _ _
          rw [apply_neg, Int.sub_eq_add_neg]

theorem unpacked_neg_neg (u : UnpackedFloat) : u.neg.neg = u := by
  have sign_neg_neg (s : UnpackedFloat.Sign) : - -s = s := by cases s <;> rfl
  cases u with
  | notANumber => rfl
  | infinity s => exact congrArg UnpackedFloat.infinity (sign_neg_neg s)
  | zero s => exact congrArg UnpackedFloat.zero (sign_neg_neg s)
  | finite s m e hm => exact congrArg (UnpackedFloat.finite · m e hm) (sign_neg_neg s)

theorem neg_ne_infinity {u : UnpackedFloat} {s : UnpackedFloat.Sign} (bounded : u ≠ .infinity s) :
    u.neg ≠ .infinity (-s) := by
  intro same
  apply bounded
  rw [← unpacked_neg_neg u, same]
  exact unpacked_neg_neg (.infinity s)

/-- A number less a finite one is a number. -/
theorem isNaN_sub {x y : Binary64} (number : x.isNaN = false) (finite : y.isFinite = true) :
    (x - y).isNaN = false := by
  obtain ⟨s, left⟩ := exists_signed number
  obtain ⟨t, right, bounded⟩ := (bounded_of_isFinite finite).repack
  rw [← parts_eq] at right bounded
  obtain ⟨r, difference⟩ := exists_signed_add left right.neg (neg_ne_infinity bounded)
  rw [← unpacked_sub_eq] at difference
  have signed : Signed r (x - y).parts :=
    signed_combine (fun _ _ => rfl) number (not_isNaN_of_signed right) difference
  exact not_isNaN_of_signed signed

theorem Signed.square {s : UnpackedFloat.Sign} {u : UnpackedFloat} (signed : Signed s u) :
    Signed .positive (UnpackedFloat.mul .binary64 u u) := by
  have same : s * s = .positive := by cases s <;> rfl
  cases signed with
  | infinity => exact same ▸ .infinity
  | zero => exact same ▸ .zero
  | finite m e hm => exact same ▸ signed_round ..

theorem Signed.add {u v : UnpackedFloat} (left : Signed .positive u) (right : Signed .positive v) :
    Signed .positive (UnpackedFloat.add .binary64 u v) := by
  cases left with
  | infinity => cases right <;> exact .infinity
  | zero =>
      cases right with
      | infinity => exact .infinity
      | zero => exact .zero
      | finite m e hm => exact .finite m e hm
  | finite m e hm =>
      cases right with
      | infinity => exact .infinity
      | zero => exact .finite m e hm
      | finite m' e' hm' =>
          change Signed _ (UnpackedFloat.normalize _ _ _ _)
          unfold UnpackedFloat.normalize
          split
          · next less =>
            exact absurd (compare_lt_iff_lt.mp less)
              (not_lt.mpr (add_nonneg (Int.natCast_nonneg _) (Int.natCast_nonneg _)))
          · exact .zero
          · exact signed_round ..

theorem Signed.sqrt {u : UnpackedFloat} (signed : Signed .positive u) :
    Signed .positive (UnpackedFloat.sqrt .binary64 u) := by
  cases signed with
  | infinity => exact .infinity
  | zero => exact .zero
  | finite m e hm => exact signed_round ..

theorem signed_square {x : Binary64} (number : x.isNaN = false) :
    Signed .positive (Scalar.square x).parts := by
  obtain ⟨s, signed⟩ := exists_signed number
  exact signed_combine (fun _ _ => rfl) number number signed.square

theorem signed_add {x y : Binary64} (left : Signed .positive x.parts)
    (right : Signed .positive y.parts) : Signed .positive (x + y).parts :=
  signed_combine (fun _ _ => rfl) (not_isNaN_of_signed left) (not_isNaN_of_signed right)
    (left.add right)

theorem signed_sqrt {x : Binary64} (signed : Signed .positive x.parts) :
    Signed .positive (Scalar.sqrt x).parts :=
  signed_apply (fun _ => rfl) (not_isNaN_of_signed signed) signed.sqrt

end HardwareLinker.Binary64
