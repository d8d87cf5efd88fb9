import Mathlib.Algebra.Order.Field.Basic
import Mathlib.Algebra.Order.Field.Power
import Mathlib.Tactic.FieldSimp
import Mathlib.Tactic.Linarith
import Mathlib.Tactic.Ring
import HardwareLinker.Proofs.Binary64

/-!
Rounding to the nearest binary64 number, as exact arithmetic sees it. A mantissa with its two extra
bits tells an exact value up to half a unit; shifting the mantissa halves the value and loses
nothing that rounding asks for. So a value within the interval of a number is rounded to it, from
whatever mantissa and exponent the value is given by, as long as the mantissa has bits enough.
-/

namespace HardwareLinker.Binary64

open Float.Model UnpackedFloat

/-- Comparisons agree where both strict orders do. -/
theorem compare_congr {α β : Type} [LinearOrder α] [LinearOrder β] {a b : α} {c d : β}
    (less : a < b ↔ c < d) (greater : b < a ↔ d < c) : compare a b = compare c d := by
  cases lt_trichotomy a b with
  | inl h => rw [compare_lt_iff_lt.mpr h, compare_lt_iff_lt.mpr (less.mp h)]
  | inr rest =>
      cases rest with
      | inl h =>
          have same : c = d := le_antisymm (not_lt.mp fun above => (greater.mpr above).ne h.symm)
            (not_lt.mp fun below => (less.mpr below).ne h)
          rw [compare_eq_iff_eq.mpr h, compare_eq_iff_eq.mpr same]
      | inr h => rw [compare_gt_iff_gt.mpr h, compare_gt_iff_gt.mpr (greater.mp h)]

/-! ### What a mantissa tells -/

/-- The value of a mantissa and its round bit. -/
def known (em : ExtendedMantissa) : ℚ := em.mantissa + if em.roundBit then 1 / 2 else 0

/-- The mantissa and its bits tell where a value lies: up to the round bit, and whether more
follows. -/
structure Tells (em : ExtendedMantissa) (r : ℚ) : Prop where
  low : known em ≤ r
  high : r < known em + 1 / 2
  sticky : em.stickyBit = false ↔ r = known em

theorem Tells.floor {em : ExtendedMantissa} {r : ℚ} (told : Tells em r) :
    (em.mantissa : ℚ) ≤ r ∧ r < em.mantissa + 1 := by
  obtain ⟨low, high, -⟩ := told
  rw [known] at low high
  split at low
  · next one =>
    rw [if_pos one] at high
    constructor <;> linarith
  · next zero =>
    rw [if_neg zero] at high
    constructor <;> linarith

theorem Tells.shiftRightOne {em : ExtendedMantissa} {r : ℚ} (told : Tells em r) :
    Tells em.shiftRightOne (r / 2) := by
  have halves : (em.mantissa : ℚ) = 2 * (em.mantissa / 2 : Nat) + (em.mantissa % 2 : Nat) := by
    exact_mod_cast (Nat.div_add_mod em.mantissa 2).symm
  have shifted : known em.shiftRightOne = em.mantissa / 2 := by
    rw [known, halves]
    change ((em.mantissa / 2 : Nat) : ℚ) + (if (em.mantissa % 2 != 0) = true then 1 / 2 else 0) = _
    cases Nat.mod_two_eq_zero_or_one em.mantissa with
    | inl even => rw [even]; norm_num
    | inr odd => rw [odd]; norm_num; ring
  have floor := told.floor
  refine ⟨?_, ?_, ?_⟩
  · rw [shifted]
    linarith
  · rw [shifted]
    linarith
  · rw [shifted]
    change (em.roundBit || em.stickyBit) = false ↔ _
    rw [Bool.or_eq_false_iff, told.sticky]
    have low := told.low
    rw [known] at low ⊢
    cases round : em.roundBit with
    | false =>
        rw [if_neg Bool.false_ne_true, add_zero]
        constructor
        · intro exact
          linarith [exact.2]
        · intro exact
          exact ⟨rfl, by linarith⟩
    | true =>
        rw [if_pos round] at low
        constructor
        · intro exact
          cases exact.1
        · intro exact
          linarith

theorem Tells.shiftRight {em : ExtendedMantissa} {r : ℚ} (told : Tells em r) (n : Nat) :
    Tells (em >>> n) (r / 2 ^ n) := by
  induction n with
  | zero =>
      rw [pow_zero, div_one]
      exact told
  | succ n ih =>
      rw [pow_succ, ← div_div]
      exact ih.shiftRightOne

/-- The nearest integer, the even one of two, comes out of the bits. -/
theorem Tells.roundedMantissa {em : ExtendedMantissa} {r : ℚ} (told : Tells em r) {n : Nat}
    (near : |r - n| ≤ 1 / 2) (tie : |r - n| = 1 / 2 → n % 2 = 0) : em.roundedMantissa = n := by
  have floor := told.floor
  obtain ⟨low, high, sticky⟩ := told
  obtain ⟨above, below⟩ := abs_le.mp near
  -- the nearest integer is the mantissa or its successor
  have candidates : n = em.mantissa ∨ n = em.mantissa + 1 := by
    have least : (em.mantissa : ℚ) < n + 1 := by linarith
    have greatest : (n : ℚ) < em.mantissa + 2 := by linarith
    have least : em.mantissa < n + 1 := by exact_mod_cast least
    have greatest : n < em.mantissa + 2 := by exact_mod_cast greatest
    omega
  obtain ⟨m, round, rest⟩ := em
  simp only [known] at low high sticky floor candidates
  cases round with
  | false =>
      rw [if_neg Bool.false_ne_true] at high
      have same : n = m := by
        refine candidates.resolve_right fun next => ?_
        rw [next] at above
        push_cast at above
        linarith
      cases rest <;> exact same.symm
  | true =>
      rw [if_pos rfl] at low sticky
      cases rest with
      | false =>
          have half := sticky.mp rfl
          have even : n % 2 = 0 := by
            apply tie
            cases candidates with
            | inl same => rw [half, same]; norm_num
            | inr next => rw [half, next]; push_cast; norm_num
          change m + m % 2 = n
          omega
      | true =>
          have more : r ≠ m + 1 / 2 := fun half => by cases sticky.mpr half
          have same : n = m + 1 := by
            refine candidates.resolve_left fun same => more ?_
            rw [same] at below
            linarith
          exact same.symm

/-! ### Mantissas that something is known of -/

theorem tells_exact (m : Nat) : Tells (.ofMantissaAndAccuracy m .exact) m := by
  constructor <;> simp [ExtendedMantissa.ofMantissaAndAccuracy, known]

/-- A fraction is told by where it lies from a half. -/
theorem tells_fraction (m : Nat) {f : ℚ} (some : 0 < f) (less : f < 1) :
    Tells (.ofMantissaAndAccuracy m (.inexact (compare f (1 / 2)))) (m + f) := by
  cases lt_trichotomy f (1 / 2) with
  | inl below =>
      rw [compare_lt_iff_lt.mpr below]
      refine ⟨?_, ?_, ?_⟩
      all_goals simp only [ExtendedMantissa.ofMantissaAndAccuracy, known]
      · norm_num
        exact some.le
      · norm_num
        linarith
      · norm_num
        exact some.ne'
  | inr rest =>
      cases rest with
      | inl same =>
          rw [same, compare_eq_iff_eq.mpr rfl]
          refine ⟨?_, ?_, ?_⟩
          all_goals simp only [ExtendedMantissa.ofMantissaAndAccuracy, known]
          all_goals norm_num
      | inr beyond =>
          rw [compare_gt_iff_gt.mpr beyond]
          refine ⟨?_, ?_, ?_⟩
          all_goals simp only [ExtendedMantissa.ofMantissaAndAccuracy, known]
          · norm_num
            linarith
          · norm_num
            linarith
          · norm_num
            intro same
            linarith

/-- A quotient is told by its whole part and the remainder. -/
theorem tells_quotient (a : Nat) {b : Nat} (positive : 0 < b) :
    Tells (.ofMantissaAndAccuracy (a / b) (accuracyOfFraction (a % b) b)) ((a : ℚ) / b) := by
  have above : (0 : ℚ) < b := by exact_mod_cast positive
  have divided : (a : ℚ) / b = (a / b : Nat) + ((a % b : Nat) : ℚ) / b := by
    have parts : (a : ℚ) = b * (a / b : Nat) + (a % b : Nat) := by
      exact_mod_cast (Nat.div_add_mod a b).symm
    conv_lhs => rw [parts]
    field_simp
  have less : ((a % b : Nat) : ℚ) / b < 1 := by
    rw [div_lt_one above]
    exact_mod_cast Nat.mod_lt a positive
  rw [divided, accuracyOfFraction]
  generalize a / b = whole
  generalize a % b = rest at *
  split
  · next none =>
    rw [none, Nat.cast_zero, zero_div, add_zero]
    exact tells_exact whole
  · next some =>
    have compared : compare (2 * rest) b = compare ((rest : ℚ) / b) (1 / 2) := by
      apply compare_congr
      · rw [div_lt_div_iff₀ above two_pos, one_mul, mul_comm]
        exact_mod_cast Iff.rfl
      · rw [div_lt_div_iff₀ two_pos above, one_mul, mul_comm]
        exact_mod_cast Iff.rfl
    rw [compared]
    exact tells_fraction whole (div_pos (by exact_mod_cast Nat.pos_of_ne_zero some) above) less

/-! ### The interval of a number -/

/-- A mantissa and an exponent as they are stored: no more bits than fit, and fewer only where the
exponent is the least. -/
structure Canonical (m : Nat) (e : Int) : Prop where
  positive : 0 < m
  bits : m < 2 ^ 53
  least : -1074 ≤ e
  full : 2 ^ 52 ≤ m ∨ e = -1074

/-- The value lies among those that round to the number: half a unit around it, a tie for an even
mantissa alone, and a quarter below the least mantissa where numbers get denser. -/
structure Nearest (m : Nat) (e : Int) (v : ℚ) : Prop where
  near : |v / 2 ^ e - m| ≤ 1 / 2
  tie : |v / 2 ^ e - m| = 1 / 2 → m % 2 = 0
  dense : m = 2 ^ 52 → -1074 < e → (2 : ℚ) ^ 52 - 1 / 4 ≤ v / 2 ^ e

theorem targetExponent_eq (m : Nat) (e : Int) :
    Format.binary64.targetExponent (totalExponent m e) = max (m.log2 + 1 + e - 53) (-1074) := rfl

theorem zpow_lt_iff {i j : Int} : (2 : ℚ) ^ i < 2 ^ j ↔ i < j := zpow_lt_zpow_iff_right₀ one_lt_two

/-- A whole part tells between which powers of two a value lies. -/
theorem bits_of_floor {M : Nat} {E : Int} {v : ℚ} (some : M ≠ 0) (low : (M : ℚ) ≤ v / 2 ^ E)
    (high : v / 2 ^ E < M + 1) :
    (2 : ℚ) ^ ((M.log2 : Int) + E) ≤ v ∧ v < 2 ^ ((M.log2 : Int) + 1 + E) := by
  have unit : (0 : ℚ) < 2 ^ E := by positivity
  have least : ((2 ^ M.log2 : Nat) : ℚ) ≤ M := by exact_mod_cast Nat.log2_self_le some
  have greatest : (M : ℚ) + 1 ≤ (2 ^ (M.log2 + 1) : Nat) := by exact_mod_cast Nat.lt_log2_self
  rw [le_div_iff₀ unit] at low
  rw [div_lt_iff₀ unit] at high
  push_cast at least greatest
  rw [zpow_add₀ two_ne_zero, zpow_add₀ two_ne_zero]
  constructor
  · calc (2 : ℚ) ^ (M.log2 : Int) * 2 ^ E ≤ M * 2 ^ E := by
          rw [zpow_natCast]
          gcongr
      _ ≤ v := low
  · calc v < (M + 1) * 2 ^ E := high
      _ ≤ 2 ^ ((M.log2 : Int) + 1) * 2 ^ E := by
          have power : (2 : ℚ) ^ ((M.log2 : Int) + 1) = 2 ^ (M.log2 + 1) :=
            zpow_natCast 2 (M.log2 + 1)
          rw [power]
          gcongr

/-- The bits of a value lie where the number has its own, or one place below where the value falls
short of the least mantissa. -/
theorem target_eq {m M : Nat} {e E : Int} {v : ℚ} (canonical : Canonical m e)
    (nearest : Nearest m e v) (low : (M : ℚ) ≤ v / 2 ^ E) (high : v / 2 ^ E < M + 1)
    (enough : E ≤ Format.binary64.targetExponent (totalExponent M E)) :
    Format.binary64.targetExponent (totalExponent M E) = e ∨
      m = 2 ^ 52 ∧ -1074 < e ∧ v / 2 ^ e < m ∧
        Format.binary64.targetExponent (totalExponent M E) = e - 1 := by
  rw [targetExponent_eq] at *
  obtain ⟨positive, bits, least, full⟩ := canonical
  obtain ⟨below, above⟩ := abs_le.mp nearest.near
  have unit : (0 : ℚ) < 2 ^ e := by positivity
  have bits : (m : ℚ) + 1 ≤ 2 ^ 53 := by exact_mod_cast bits
  have beneath : v < 2 ^ (53 + e) := by
    rw [zpow_add₀ two_ne_zero, ← div_lt_iff₀ unit]
    norm_num at bits ⊢
    linarith
  -- a power of two that the value reaches by the number's own unit
  have reaches (k : Nat) (h : (2 : ℚ) ^ k ≤ v / 2 ^ e) : (2 : ℚ) ^ ((k : Int) + e) ≤ v := by
    rw [zpow_add₀ two_ne_zero, zpow_natCast]
    exact (le_div_iff₀ unit).mp h
  by_cases none : M = 0
  · -- nothing but the least exponent leaves no whole part
    subst none
    have first : ((0 : Nat).log2 : Int) = 0 := rfl
    rw [first] at enough ⊢
    left
    cases full with
    | inr last => omega
    | inl full =>
        have full : (2 : ℚ) ^ 52 ≤ m := by exact_mod_cast full
        have one := reaches 0 (by rw [pow_zero]; linarith)
        have small : v < 2 ^ E := by
          rw [Nat.cast_zero, zero_add] at high
          exact (div_lt_one (by positivity)).mp high
        have := zpow_lt_iff.mp (one.trans_lt small)
        omega
  · obtain ⟨least_v, greatest_v⟩ := bits_of_floor none low high
    have top := zpow_lt_iff.mp (least_v.trans_lt beneath)
    cases full with
    | inr last => left; omega
    | inl full =>
        have full : (2 : ℚ) ^ 52 ≤ m := by exact_mod_cast full
        by_cases reached : (2 : ℚ) ^ 52 ≤ v / 2 ^ e
        · have := zpow_lt_iff.mp ((reaches 52 reached).trans_lt greatest_v)
          left
          omega
        · by_cases last : e = -1074
          · left
            omega
          · have short : v < 2 ^ ((52 : Int) + e) := by
              rw [zpow_add₀ two_ne_zero, ← div_lt_iff₀ unit]
              exact not_le.mp reached
            have same : m = 2 ^ 52 := by
              have less : (m : ℚ) < 2 ^ 52 + 1 := by linarith
              have less : m < 2 ^ 52 + 1 := by exact_mod_cast less
              have full : 2 ^ 52 ≤ m := by exact_mod_cast full
              omega
            have dense := nearest.dense same (by omega)
            have half := zpow_lt_iff.mp ((reaches 51 (by linarith)).trans_lt greatest_v)
            have place := zpow_lt_iff.mp (least_v.trans_lt short)
            right
            refine ⟨same, by omega, by linarith, by omega⟩

theorem shiftToTargetExponent_of_fits {m : Nat} {e : Int} (bits : m < 2 ^ 53) (least : -1074 ≤ e) :
    shiftToTargetExponent .binary64 m e .exact = (⟨m, false, false⟩, e) := by
  have short : m.log2 < 53 := by
    by_cases zero : m = 0
    · rw [zero]; decide
    · exact (Nat.log2_lt zero).mpr bits
  have none : (max ((m.log2 : Int) + 1 + e - 53) (-1074) - e).toNat = 0 := by omega
  rw [shiftToTargetExponent, targetExponent_eq, shiftToExponent, none]
  exact Prod.ext rfl (Int.add_zero e)

theorem shiftToTargetExponent_of_carry {e : Int} (least : -1074 ≤ e + 1) :
    shiftToTargetExponent .binary64 (2 ^ 53) e .exact = (⟨2 ^ 52, false, false⟩, e + 1) := by
  have one : (max (((2 ^ 53 : Nat).log2 : Int) + 1 + e - 53) (-1074) - e).toNat = 1 := by
    rw [Nat.log2_two_pow]
    omega
  rw [shiftToTargetExponent, targetExponent_eq, shiftToExponent, one]
  rfl

/-- The rounded mantissa is shifted once more, for it may have gained a bit. -/
theorem roundWithAccuracy_of_shifts {m M : Nat} {e E T : Int} {accuracy : Accuracy}
    {em : ExtendedMantissa} (sign : Sign) (positive : 0 < m)
    (first : shiftToTargetExponent .binary64 M E accuracy = (em, T))
    (second : shiftToTargetExponent .binary64 em.roundedMantissa T .exact =
      (⟨m, false, false⟩, e)) :
    roundWithAccuracy .binary64 sign M E accuracy = .finite sign m e positive := by
  rw [roundWithAccuracy, first]
  dsimp only
  rw [second]
  exact dif_neg positive.ne'

/-- A value is rounded to the number in whose interval it lies. -/
theorem roundWithAccuracy_eq {m M : Nat} {e E : Int} {v : ℚ} {accuracy : Accuracy} (sign : Sign)
    (canonical : Canonical m e) (nearest : Nearest m e v)
    (told : Tells (.ofMantissaAndAccuracy M accuracy) (v / 2 ^ E))
    (enough : E ≤ Format.binary64.targetExponent (totalExponent M E)) :
    roundWithAccuracy .binary64 sign M E accuracy = .finite sign m e canonical.positive := by
  have floor := told.floor
  have mantissa : (ExtendedMantissa.ofMantissaAndAccuracy M accuracy).mantissa = M := by
    cases accuracy with
    | exact => rfl
    | inexact place => cases place <;> rfl
  rw [mantissa] at floor
  -- the first shift tells the value in units of the target exponent
  have shifted : ∃ em, shiftToTargetExponent .binary64 M E accuracy =
      (em, Format.binary64.targetExponent (totalExponent M E)) ∧
      Tells em (v / 2 ^ Format.binary64.targetExponent (totalExponent M E)) := by
    generalize target : Format.binary64.targetExponent (totalExponent M E) = T at *
    refine ⟨_, Prod.ext rfl ?_, ?_⟩
    · rw [shiftToTargetExponent, target]
      change E + ((T - E).toNat : Int) = T
      omega
    · have units : v / 2 ^ T = v / 2 ^ E / 2 ^ (T - E).toNat := by
        rw [div_div, ← zpow_natCast, ← zpow_add₀ two_ne_zero]
        congr 2
        omega
      rw [units, shiftToTargetExponent, target]
      exact told.shiftRight (T - E).toNat
  obtain ⟨em, shifted, told⟩ := shifted
  cases target_eq canonical nearest floor.1 floor.2 enough with
  | inl same =>
      rw [same] at told shifted
      have rounded := told.roundedMantissa nearest.near nearest.tie
      apply roundWithAccuracy_of_shifts sign canonical.positive shifted
      rw [rounded, shiftToTargetExponent_of_fits canonical.bits canonical.least]
  | inr carry =>
      obtain ⟨least, above, short, place⟩ := carry
      rw [place] at told shifted
      -- one place below, the value is next to a mantissa with a bit too many
      have doubled : v / 2 ^ (e - 1) = 2 * (v / 2 ^ e) := by
        rw [zpow_sub_one₀ two_ne_zero]
        field_simp
      have dense := nearest.dense least above
      rw [least] at short
      push_cast at short
      rw [doubled] at told
      have rounded : em.roundedMantissa = 2 ^ 53 := by
        apply told.roundedMantissa
        · rw [abs_le]
          push_cast
          constructor <;> linarith
        · intro _
          decide
      subst least
      apply roundWithAccuracy_of_shifts sign canonical.positive shifted
      rw [rounded, shiftToTargetExponent_of_carry (e := e - 1) (by omega), Int.sub_add_cancel]

end HardwareLinker.Binary64
