import HardwareLinker.Proofs.Binary64.Scientific

/-!
The sign of a number and its magnitude: what comparisons with zero tell of them, and sums that stay
numbers.
-/

namespace HardwareLinker
namespace Binary64

open Float.Model

/-! ### Sign and magnitude -/

theorem toBitVec_signBit : signBit.toBitVec = BitVec.twoPow 64 63 := by decide

theorem isNegative_eq (x : Binary64) : x.isNegative = x.bits.toBitVec.getLsbD 63 := by
  have zero : BitVec.twoPow 64 63 ≠ 0#64 := by decide
  have bits : (x.bits &&& signBit = 0) ↔ x.bits.toBitVec &&& BitVec.twoPow 64 63 = 0#64 := by
    rw [← UInt64.toBitVec_inj, UInt64.toBitVec_and, toBitVec_signBit]
    rfl
  rw [isNegative, Bool.eq_iff_iff, bne_iff_ne, ne_eq, bits, BitVec.and_twoPow]
  cases x.bits.toBitVec.getLsbD 63 with
  | true => simp [zero]
  | false => simp

/-- A number is its magnitude with its sign. -/
theorem signed_magnitude (x : Binary64) :
    (if x.isNegative then -(⟨x.magnitude⟩ : Binary64) else ⟨x.magnitude⟩) = x := by
  have sign := isNegative_eq x
  have others : x.magnitude.toBitVec = x.bits.toBitVec &&& ~~~BitVec.twoPow 64 63 := by
    rw [magnitude, UInt64.toBitVec_and, UInt64.toBitVec_not, toBitVec_signBit]
  obtain ⟨bits⟩ := x
  split
  · next negative =>
    rw [sign] at negative
    apply congrArg Binary64.mk
    apply UInt64.toBitVec_inj.mp
    rw [UInt64.toBitVec_xor, others, toBitVec_signBit]
    apply BitVec.eq_of_getLsbD_eq
    intro i h
    by_cases last : i = 63
    · simp [last, negative]
    · simp [h, last]
  · next positive =>
    rw [sign, Bool.not_eq_true] at positive
    apply congrArg Binary64.mk
    apply UInt64.toBitVec_inj.mp
    rw [others]
    apply BitVec.eq_of_getLsbD_eq
    intro i h
    by_cases last : i = 63
    · simpa [last] using positive
    · simp [h, last]

theorem eq_of_magnitude {x : Binary64} {bits : UInt64} (magnitude : x.magnitude = bits) :
    (if x.isNegative then -(⟨bits⟩ : Binary64) else ⟨bits⟩) = x := by
  rw [← magnitude, signed_magnitude]

theorem magnitude_abs (x : Binary64) : x.abs.magnitude = x.magnitude := by
  rw [abs, magnitude, magnitude, UInt64.and_assoc, UInt64.and_self]

theorem isNaN_abs (x : Binary64) : x.abs.isNaN = x.isNaN := by
  rw [isNaN, isNaN, magnitude_abs]

theorem isZero_abs (x : Binary64) : x.abs.isZero = x.isZero := by
  rw [isZero, isZero, magnitude_abs]

/-! ### The parts of a number -/

def sign (x : Binary64) : UnpackedFloat.Sign := if x.isNegative then .negative else .positive

theorem sign_eq (x : Binary64) :
    UnpackedFloat.Sign.ofBitVec (@UnpackedFloat.unpackSign .binary64 x.bits.toBitVec) = x.sign := by
  have small := x.bits.toNat_lt
  have bit :
      (@UnpackedFloat.unpackSign .binary64 x.bits.toBitVec).toNat = x.bits.toNat / 2 ^ 63 % 2 := by
    unfold UnpackedFloat.unpackSign
    simp [Nat.shiftRight_eq_div_pow]
  have negative : x.isNegative = decide (x.bits.toNat / 2 ^ 63 % 2 = 1) :=
    (isNegative_eq x).trans Nat.testBit_eq_decide_div_mod_eq
  have zero : (@UnpackedFloat.unpackSign .binary64 x.bits.toBitVec = 0#1) ↔
      x.bits.toNat / 2 ^ 63 % 2 = 0 := by
    rw [← BitVec.toNat_inj, bit]
    rfl
  rw [UnpackedFloat.Sign.ofBitVec, sign, negative]
  by_cases low : x.bits.toNat / 2 ^ 63 % 2 = 0
  · rw [if_pos (zero.mpr low), low]
    rfl
  · rw [if_neg fun same => low (zero.mp same), if_pos (by simp; omega)]

theorem repacked_zero (s : UnpackedFloat.Sign) : repacked (.zero s) = .zero s := by
  cases s <;> rfl

theorem repacked_infinity (s : UnpackedFloat.Sign) : repacked (.infinity s) = .infinity s := by
  cases s <;> rfl

/-- The parts of a number have its sign; they are those of zero for zeros alone. -/
theorem parts_of_number {x : Binary64} (number : x.isNaN = false) :
    x.parts = .infinity x.sign ∨ x.isZero = true ∧ x.parts = .zero x.sign ∨
      ∃ m e hm, x.parts = .finite x.sign m e hm := by
  have bits : x.bits.toBitVec.toNat = x.bits.toNat := rfl
  have small := x.bits.toNat_lt
  have exponent : (@UnpackedFloat.unpackExponent .binary64 x.bits.toBitVec).toNat =
      x.bits.toNat / 2 ^ 52 % 2 ^ 11 := by
    simp [UnpackedFloat.unpackExponent, Nat.shiftRight_eq_div_pow]
  have mantissa : (@UnpackedFloat.unpackMantissa .binary64 x.bits.toBitVec).toNat =
      x.bits.toNat % 2 ^ 52 := by
    simp [UnpackedFloat.unpackMantissa]
  rw [isNaN, decide_eq_false_iff_not, UInt64.lt_iff_toNat_lt, toNat_magnitude,
    show infinityBits.toNat = 0x7FF0000000000000 by decide] at number
  rw [parts_eq, unpack_eq, sign_eq]
  rcases ofFields_cases x.sign (@UnpackedFloat.unpackExponent .binary64 x.bits.toBitVec)
    (@UnpackedFloat.unpackMantissa .binary64 x.bits.toBitVec)
    with ⟨-, -, same⟩ | ⟨ones, some, -⟩ | ⟨none, zero, same⟩ | ⟨-, positive, same⟩ |
      ⟨ones, normal, _, same⟩
  · rw [same, repacked_infinity]
    exact .inl rfl
  · refine absurd (BitVec.eq_of_toNat_eq ?_) some
    have all := exponent.symm.trans (congrArg BitVec.toNat ones)
    rw [mantissa]
    simp at all ⊢
    omega
  · have least := exponent.symm.trans (congrArg BitVec.toNat none)
    have short := mantissa.symm.trans (congrArg BitVec.toNat zero)
    rw [same, repacked_zero]
    refine .inr (.inl ⟨?_, rfl⟩)
    rw [isZero, beq_iff_eq, ← UInt64.toNat_inj, toNat_magnitude]
    simp at least short ⊢
    omega
  · have canonical :
        Canonical (@UnpackedFloat.unpackMantissa .binary64 x.bits.toBitVec).toNat (-1074) :=
      ⟨positive, by omega, le_rfl, .inr rfl⟩
    rw [same]
    exact .inr (.inr ⟨_, _, canonical.positive, unpack_pack canonical (by decide)⟩)
  · have least : x.bits.toNat / 2 ^ 52 % 2 ^ 11 ≠ 0 := fun zero =>
      normal (BitVec.eq_of_toNat_eq (exponent.trans zero))
    have some : x.bits.toNat / 2 ^ 52 % 2 ^ 11 ≠ 2047 := fun all =>
      ones (BitVec.eq_of_toNat_eq (exponent.trans all))
    have full : (1#1 ++ @UnpackedFloat.unpackMantissa .binary64 x.bits.toBitVec).toNat =
        2 ^ 52 + x.bits.toNat % 2 ^ 52 := by
      rw [toNat_one_append, mantissa]
    have canonical :
        Canonical (1#1 ++ @UnpackedFloat.unpackMantissa .binary64 x.bits.toBitVec).toNat
          ((x.bits.toNat / 2 ^ 52 % 2 ^ 11 : Nat) - 1075) := by
      rw [full]
      exact ⟨by omega, by omega, by omega, .inl (by omega)⟩
    rw [same, exponent]
    exact .inr (.inr ⟨_, _, canonical.positive,
      unpack_pack canonical (by rw [greatestExponent]; omega)⟩)

/-! ### Comparisons with zero -/

theorem isNegative_of_neg {x : Binary64} (negative : x < 0) : x.isNegative = true := by
  have number : x.isNaN = false := by
    rw [Bool.eq_false_iff]
    intro none
    rw [lt_iff, parts_of_isNaN none] at negative
    cases negative
  by_contra positive
  have plus : x.sign = .positive := if_neg positive
  have zero : (0 : Binary64).parts = .zero .positive := rfl
  rw [lt_iff, zero] at negative
  obtain infinite | ⟨-, none⟩ | ⟨m, e, hm, finite⟩ := parts_of_number number
  · rw [infinite, plus] at negative
    cases negative
  · rw [none] at negative
    cases negative
  · rw [finite, plus] at negative
    cases negative

/-- What is below zero is its magnitude with a minus. -/
theorem neg_abs_of_neg {x : Binary64} (negative : x < 0) : -x.abs = x := by
  have whole := signed_magnitude x
  rwa [if_pos (isNegative_of_neg negative)] at whole

/-- What is not below zero is its magnitude, unless it is the negative zero. -/
theorem abs_of_not_neg {x : Binary64} (number : x.isNaN = false) (above : ¬ x < 0) :
    x.abs = x ∨ x.isZero = true := by
  by_cases negative : x.isNegative = true
  · have minus : x.sign = .negative := if_pos negative
    have zero : (0 : Binary64).parts = .zero .positive := rfl
    rw [lt_iff, zero] at above
    obtain infinite | ⟨none, -⟩ | ⟨m, e, hm, finite⟩ := parts_of_number number
    · rw [infinite, minus] at above
      exact absurd rfl above
    · exact .inr none
    · rw [finite, minus] at above
      exact absurd rfl above
  · have whole := signed_magnitude x
    rw [if_neg negative] at whole
    exact .inl whole

theorem not_neg_of_nonneg {x : Binary64} (nonneg : 0 ≤ x) : ¬ x < 0 := by
  have zero : (0 : Binary64).parts = .zero .positive := rfl
  rw [lt_iff, zero]
  rw [le_iff, zero] at nonneg
  cases parts : x.parts with
  | notANumber => exact nofun
  | infinity s =>
      cases s with
      | positive => exact nofun
      | negative => rw [parts] at nonneg; cases nonneg
  | zero s => exact nofun
  | finite s m e hm =>
      cases s with
      | positive => exact nofun
      | negative => rw [parts] at nonneg; cases nonneg

/-! ### Sums -/

theorem isNaN_of_isFinite {x : Binary64} (finite : x.isFinite = true) : x.isNaN = false := by
  rw [isFinite, decide_eq_true_iff] at finite
  rw [isNaN, decide_eq_false_iff_not]
  exact fun above => absurd finite (UInt64.lt_asymm above)

theorem signed_round (s : UnpackedFloat.Sign) (m : Nat) (e : Int)
    (accuracy : UnpackedFloat.Accuracy) :
    Signed s (UnpackedFloat.roundWithAccuracy .binary64 s m e accuracy) := by
  unfold UnpackedFloat.roundWithAccuracy
  obtain ⟨em, place⟩ := UnpackedFloat.shiftToTargetExponent .binary64 m e accuracy
  dsimp only
  obtain ⟨rounded, place'⟩ :=
    UnpackedFloat.shiftToTargetExponent .binary64 em.roundedMantissa place .exact
  by_cases none : rounded.mantissa = 0
  · exact (dif_pos none).symm ▸ .zero
  · exact (dif_neg none).symm ▸ .finite ..

/-- Parts that are a number. -/
theorem exists_signed_add {s t : UnpackedFloat.Sign} {u v : UnpackedFloat} (left : Signed s u)
    (right : Signed t v) (bounded : v ≠ .infinity t) :
    ∃ r, Signed r (UnpackedFloat.add .binary64 u v) := by
  cases right with
  | infinity => exact absurd rfl bounded
  | zero =>
      cases left with
      | infinity => exact ⟨s, .infinity⟩
      | zero => cases s <;> cases t <;> exact ⟨_, .zero⟩
      | finite m e hm => exact ⟨s, .finite m e hm⟩
  | finite m e hm =>
      cases left with
      | infinity => exact ⟨s, .infinity⟩
      | zero => exact ⟨t, .finite m e hm⟩
      | finite m' e' hm' =>
          change ∃ r, Signed r (UnpackedFloat.normalize _ _ _ _)
          unfold UnpackedFloat.normalize
          split
          · exact ⟨_, signed_round ..⟩
          · exact ⟨_, .zero⟩
          · exact ⟨_, signed_round ..⟩

/-- A finite summand leaves a number a number. -/
theorem isNaN_add {x y : Binary64} (number : x.isNaN = false) (finite : y.isFinite = true) :
    (x + y).isNaN = false := by
  obtain ⟨s, left⟩ := exists_signed number
  obtain ⟨t, right, bounded⟩ := (bounded_of_isFinite finite).repack
  rw [← parts_eq] at right bounded
  obtain ⟨r, sum⟩ := exists_signed_add left right bounded
  have signed : Signed r (x + y).parts :=
    signed_combine (fun _ _ => rfl) number (not_isNaN_of_signed right) sum
  exact not_isNaN_of_signed signed

end Binary64
end HardwareLinker
