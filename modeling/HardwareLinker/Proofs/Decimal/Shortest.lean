import HardwareLinker.Decimal.Shortest
import HardwareLinker.Proofs.Binary64.Rounding

/-!
The digits that are chosen for a number read back to it. The test that every candidate passes is
that its value lies in the interval of the number, told in whole numbers; where no candidate is
found, the digits of the value itself pass it.
-/

namespace HardwareLinker.Decimal

open Binary64 (Canonical Nearest)

/-- The value of digits and a power of ten. -/
def Digits.value (d : Digits) : ℚ := d.digits * 10 ^ d.exponent

/-! ### Powers as fractions -/

theorem denominatorOf_pos {base : Nat} (positive : 0 < base) (e : Int) : 0 < denominatorOf base e :=
  Nat.pow_pos positive

theorem zpow_eq {base : Nat} (positive : 0 < base) (e : Int) :
    (base : ℚ) ^ e = numeratorOf base e / denominatorOf base e := by
  have some : (base : ℚ) ≠ 0 := by exact_mod_cast positive.ne'
  have parts : e = (e.toNat : Int) - ((-e).toNat : Int) := by omega
  conv_lhs => rw [parts, zpow_sub₀ some, zpow_natCast, zpow_natCast]
  rw [← Nat.cast_pow, ← Nat.cast_pow]
  rfl

/-- Scaled numbers are compared as the rationals that they are. -/
theorem compareScaled_eq (a : Nat) (i : Int) (m : Nat) (j : Int) :
    compareScaled a i m j = compare ((a : ℚ) * 10 ^ i) (m * 2 ^ j) := by
  have ten : ((10 : Nat) : ℚ) ^ i = _ := zpow_eq (by decide) i
  have two : ((2 : Nat) : ℚ) ^ j = _ := zpow_eq (by decide) j
  rw [Nat.cast_ofNat] at ten two
  have below_ten : (0 : ℚ) < denominatorOf 10 i := by exact_mod_cast denominatorOf_pos (by decide) i
  have below_two : (0 : ℚ) < denominatorOf 2 j := by exact_mod_cast denominatorOf_pos (by decide) j
  rw [compareScaled, ten, two, ← mul_div_assoc, ← mul_div_assoc]
  apply Binary64.compare_congr
  · rw [div_lt_div_iff₀ below_ten below_two]
    exact_mod_cast Iff.rfl
  · rw [div_lt_div_iff₀ below_two below_ten]
    exact_mod_cast Iff.rfl

/-! ### The interval of a number -/

namespace Dyadic

/-- What is taken off below, in quarters of a unit. -/
def margin (x : Dyadic) : Nat := if x.narrowBelow then 1 else 2

/-- The value lies between the ends of the interval, or on one of them if the mantissa is even. -/
theorem readsBack_iff {x : Dyadic} {d : Digits} :
    x.readsBack d = true ↔
      (((4 * x.mantissa - x.margin : Nat) * 2 ^ (x.exponent - 2) < d.value ∨
        x.mantissa % 2 = 0 ∧ d.value = (4 * x.mantissa - x.margin : Nat) * 2 ^ (x.exponent - 2)) ∧
      (d.value < (4 * x.mantissa + 2 : Nat) * 2 ^ (x.exponent - 2) ∨
        x.mantissa % 2 = 0 ∧ d.value = (4 * x.mantissa + 2 : Nat) * 2 ^ (x.exponent - 2))) := by
  rw [readsBack]
  simp only [compareScaled_eq, Bool.and_eq_true, Bool.or_eq_true, beq_iff_eq, compare_gt_iff_gt,
    compare_lt_iff_lt, compare_eq_iff_eq, Digits.value, margin]

/-- What holds of the parts of every positive finite number. -/
structure Stored (x : Dyadic) : Prop where
  canonical : Canonical x.mantissa x.exponent
  finite : x.exponent ≤ 971
  narrow : x.narrowBelow = true ↔ x.mantissa = 2 ^ 52 ∧ -1074 < x.exponent

theorem Stored.nearest {x : Dyadic} (stored : x.Stored) {d : Digits}
    (reads : x.readsBack d = true) : Nearest x.mantissa x.exponent d.value := by
  obtain ⟨low, high⟩ := readsBack_iff.mp reads
  have unit : (0 : ℚ) < 2 ^ x.exponent := by positivity
  have positive := stored.canonical.positive
  have quarter (q : ℚ) : q * 2 ^ (x.exponent - 2) = q / 4 * 2 ^ x.exponent := by
    rw [zpow_sub₀ two_ne_zero]
    norm_num
    ring
  have lower : ((4 * x.mantissa - x.margin : Nat) : ℚ) = 4 * x.mantissa - x.margin := by
    have small : x.margin ≤ 2 := by
      rw [margin]
      split <;> decide
    rw [Nat.cast_sub (by omega)]
    push_cast
    rfl
  rw [quarter, ← lt_div_iff₀ unit, ← div_eq_iff unit.ne', lower] at low
  rw [quarter, ← div_lt_iff₀ unit, ← div_eq_iff unit.ne'] at high
  push_cast at high
  have beneath : d.value / 2 ^ x.exponent ≤ x.mantissa + 1 / 2 := by
    cases high with
    | inl less => linarith
    | inr equal => linarith [equal.2]
  have least : (x.mantissa : ℚ) - x.margin / 4 ≤ d.value / 2 ^ x.exponent := by
    cases low with
    | inl less => linarith
    | inr equal => linarith [equal.2]
  -- both ends of the interval are a half away, so a tie is on an end
  have ends (margin : x.margin = 2) (tie : |d.value / 2 ^ x.exponent - x.mantissa| = 1 / 2) :
      x.mantissa % 2 = 0 := by
    rw [margin] at low
    cases (abs_eq (by norm_num)).mp tie with
    | inl top => exact high.elim (fun less => absurd less (by linarith)) (·.1)
    | inr bottom => exact low.elim (fun less => absurd less (by push_cast; linarith)) (·.1)
  cases narrow : x.narrowBelow with
  | true =>
      obtain ⟨first, -⟩ := stored.narrow.mp narrow
      have margin : x.margin = 1 := by rw [Dyadic.margin, narrow, if_pos rfl]
      rw [margin, Nat.cast_one] at least
      refine ⟨abs_le.mpr ⟨by linarith, by linarith⟩, fun _ => by rw [first]; decide, fun _ _ => ?_⟩
      rw [first] at least
      push_cast at least
      linarith
  | false =>
      have margin : x.margin = 2 := by rw [Dyadic.margin, narrow, if_neg Bool.false_ne_true]
      rw [margin, Nat.cast_ofNat] at least
      refine ⟨abs_le.mpr ⟨by linarith, by linarith⟩, ends margin, fun first above => ?_⟩
      exact absurd (stored.narrow.mpr ⟨first, above⟩) (by rw [narrow]; exact Bool.false_ne_true)

/-! ### Digits that read back -/

theorem onGrid_readsBack {x : Dyadic} {place : Int} {d : Digits} (found : x.onGrid place = some d) :
    x.readsBack d = true := by
  rw [onGrid] at found
  split at found
  · next lower upper =>
    cases found
    split
    · exact upper
    · exact lower
  · next lower _ =>
    cases found
    exact lower
  · next _ upper =>
    cases found
    exact upper
  · cases found

theorem value_exactly (x : Dyadic) : x.exactly.value = x.mantissa * 2 ^ x.exponent := by
  have two : ((2 : Nat) : ℚ) ^ x.exponent = _ := zpow_eq (by decide) x.exponent
  rw [Nat.cast_ofNat] at two
  rw [exactly, Digits.value]
  split
  · next whole =>
    have one : denominatorOf 2 x.exponent = 1 := by
      have none : (-x.exponent).toNat = 0 := by omega
      rw [denominatorOf, numeratorOf, none]
    rw [two, one, zpow_zero, mul_one, Nat.cast_one, div_one, Nat.cast_mul]
  · next fraction =>
    -- the power of five makes the power of ten a power of two
    have five : ((5 : Nat) : ℚ) ^ x.exponent = _ := zpow_eq (by decide) x.exponent
    have one : numeratorOf 5 x.exponent = 1 := by
      have none : x.exponent.toNat = 0 := by omega
      rw [numeratorOf, none]
    have ten : (10 : ℚ) ^ x.exponent = 2 ^ x.exponent * 5 ^ x.exponent := by
      rw [← mul_zpow]
      norm_num
    have some : (denominatorOf 5 x.exponent : ℚ) ≠ 0 := by
      exact_mod_cast (denominatorOf_pos (by decide) x.exponent).ne'
    rw [Nat.cast_ofNat, one, Nat.cast_one] at five
    rw [ten, five, Nat.cast_mul]
    field_simp

theorem exactly_readsBack {x : Dyadic} (positive : 0 < x.mantissa) :
    x.readsBack x.exactly = true := by
  have unit : (0 : ℚ) < 2 ^ (x.exponent - 2) := by positivity
  have quarters :
      (x.mantissa : ℚ) * 2 ^ x.exponent = (4 * x.mantissa : Nat) * 2 ^ (x.exponent - 2) := by
    rw [zpow_sub₀ two_ne_zero]
    push_cast
    ring
  have some : 0 < x.margin := by
    rw [margin]
    split <;> decide
  rw [readsBack_iff, value_exactly, quarters]
  constructor
  · left
    gcongr
    omega
  · left
    gcongr
    omega

/-- Whether a candidate is found or not, the digits read back. -/
theorem shortest_readsBack {x : Dyadic} (positive : 0 < x.mantissa) :
    x.readsBack x.shortest = true := by
  rw [shortest]
  cases found : (List.range 17).findSome? fun n =>
      x.onGrid (scaleBelow x 5 x.scaleGuess - (n + 1 : Nat)) with
  | none => exact exactly_readsBack positive
  | some d =>
      obtain ⟨n, -, onto⟩ := List.exists_of_findSome?_eq_some found
      exact onGrid_readsBack onto

/-! ### The parts of a stored number -/

theorem ofBits_eq (bits : UInt64) : ofBits bits =
    if bits.toNat / 2 ^ 52 % 2 ^ 11 = 0 then ⟨bits.toNat % 2 ^ 52, -1074, false⟩
    else ⟨2 ^ 52 + bits.toNat % 2 ^ 52, ((bits.toNat / 2 ^ 52 % 2 ^ 11 : Nat) : Int) - 1075,
      bits.toNat % 2 ^ 52 == 0 && bits.toNat / 2 ^ 52 % 2 ^ 11 > 1⟩ := by
  have field : ((bits >>> 52) &&& 0x7FF).toNat = bits.toNat / 2 ^ 52 % 2 ^ 11 := by
    rw [UInt64.toNat_and, UInt64.toNat_shiftRight, Nat.shiftRight_eq_div_pow]
    exact Nat.and_two_pow_sub_one_eq_mod _ 11
  have fraction : (bits &&& 0xFFFFFFFFFFFFF).toNat = bits.toNat % 2 ^ 52 := by
    rw [UInt64.toNat_and]
    exact Nat.and_two_pow_sub_one_eq_mod _ 52
  rw [ofBits, field, fraction]
  rfl

theorem toNat_lt_infinityBits {bits : UInt64} (finite : bits < Binary64.infinityBits) :
    bits.toNat < 2047 * 2 ^ 52 :=
  UInt64.lt_iff_toNat_lt.mp finite

theorem stored_ofBits {bits : UInt64} (some : bits ≠ 0) (finite : bits < Binary64.infinityBits) :
    (ofBits bits).Stored := by
  have below := toNat_lt_infinityBits finite
  have above : bits.toNat ≠ 0 := fun zero => some (UInt64.toNat_inj.mp zero)
  rw [ofBits_eq]
  clear finite some
  generalize bits.toNat = n at *
  split
  · next least =>
    refine ⟨⟨?_, ?_, ?_, ?_⟩, ?_, ?_⟩
    all_goals simp only
    · omega
    · omega
    · omega
    · exact .inr trivial
    · omega
    · simp
  · next more =>
    refine ⟨⟨?_, ?_, ?_, ?_⟩, ?_, ?_⟩
    all_goals simp only
    · omega
    · omega
    · omega
    · omega
    · omega
    · simp only [Bool.and_eq_true, beq_iff_eq, decide_eq_true_eq]
      omega

end Dyadic
end HardwareLinker.Decimal
