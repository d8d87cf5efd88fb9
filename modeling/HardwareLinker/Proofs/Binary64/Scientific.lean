import HardwareLinker.Proofs.Binary64.Rounding

/-!
Numbers that are given by digits and a power of ten. Whether the power is looked up, multiplied or
divided by, the result is the number in whose interval the value lies.
-/

namespace HardwareLinker.Binary64

open Float.Model UnpackedFloat

/-! ### Numbers that are stored -/

/-- The greatest exponent of a finite number. -/
def greatestExponent : Int := 971

theorem Canonical.log2_of_full {m : Nat} {e : Int} (canonical : Canonical m e) (full : 2 ^ 52 ≤ m) :
    m.log2 = 52 := by
  have least := (Nat.le_log2 canonical.positive.ne').mpr full
  have greatest := (Nat.log2_lt canonical.positive.ne').mpr canonical.bits
  omega

theorem Canonical.biased {m : Nat} {e : Int} (canonical : Canonical m e)
    (finite : e ≤ greatestExponent) : 1 ≤ (e + 1075).toNat ∧ (e + 1075).toNat + 1 < 2 ^ 11 := by
  have least := canonical.least
  rw [greatestExponent] at finite
  omega

/-- With all its bits a mantissa is stored without the leading one. -/
theorem pack_of_full {sign : Sign} {m : Nat} {e : Int} (canonical : Canonical m e)
    (finite : e ≤ greatestExponent) (full : 2 ^ 52 ≤ m) :
    UnpackedFloat.pack .binary64 (.finite sign m e canonical.positive) =
      packComponents .binary64 sign (BitVec.ofNat 11 (e + 1075).toNat) (BitVec.ofNat 52 m) := by
  obtain ⟨-, small⟩ := canonical.biased finite
  rw [pack_finite, if_neg (Nat.not_le.mpr small), canonical.log2_of_full full, if_pos rfl]

/-- With fewer bits the mantissa is stored as it is. -/
theorem pack_of_short {sign : Sign} {m : Nat} {e : Int} (canonical : Canonical m e)
    (finite : e ≤ greatestExponent) (short : m < 2 ^ 52) :
    UnpackedFloat.pack .binary64 (.finite sign m e canonical.positive) =
      packComponents .binary64 sign 0#11 (BitVec.ofNat 52 m) := by
  obtain ⟨-, small⟩ := canonical.biased finite
  have log := (Nat.log2_lt canonical.positive.ne').mpr short
  rw [pack_finite, if_neg (Nat.not_le.mpr small), if_neg fun all => log.ne (Nat.succ.inj all)]

/-- A number that is stored is read back. -/
theorem unpack_pack {sign : Sign} {m : Nat} {e : Int} (canonical : Canonical m e)
    (finite : e ≤ greatestExponent) :
    UnpackedFloat.unpack .binary64 (UnpackedFloat.pack .binary64
      (.finite sign m e canonical.positive)) = .finite sign m e canonical.positive := by
  obtain ⟨some, small⟩ := canonical.biased finite
  have bits := canonical.bits
  by_cases full : 2 ^ 52 ≤ m
  · have exponent : BitVec.ofNat 11 (e + 1075).toNat ≠ 0#11 := by
      intro zero
      have := congrArg BitVec.toNat zero
      simp at this
      omega
    rw [pack_of_full canonical finite full, unpack_packComponents, ofFields,
      if_neg (ofNat_ne_ones (Nat.not_le.mpr small)), if_neg exponent]
    rw [UnpackedFloat.finite.injEq]
    refine ⟨rfl, ?_, ?_⟩
    · have stored : (BitVec.ofNat 52 m).toNat = m - 2 ^ 52 := by
        rw [BitVec.toNat_ofNat]
        omega
      rw [toNat_one_append, stored]
      omega
    · rw [BitVec.toNat_ofNat]
      omega
  · have mantissa : BitVec.ofNat 52 m ≠ 0#52 := by
      intro zero
      have := congrArg BitVec.toNat zero
      have positive := canonical.positive
      simp at this
      omega
    rw [pack_of_short canonical finite (Nat.not_le.mp full), unpack_packComponents, ofFields,
      if_neg (by decide), if_pos rfl, dif_neg mantissa]
    have least := canonical.full.resolve_left full
    rw [UnpackedFloat.finite.injEq]
    refine ⟨rfl, ?_, ?_⟩
    · rw [BitVec.toNat_ofNat]
      omega
    · rw [least]
      rfl

/-! ### Operations -/

theorem div_divCore (m₁ m₂ : Nat) (e₁ e₂ : Int) : ∃ shift : Nat,
    divCore .binary64 m₁ e₁ m₂ e₂ = (m₁ * 2 ^ shift / m₂, e₁ - e₂ - shift,
      accuracyOfFraction (m₁ * 2 ^ shift % m₂) m₂) ∧
    e₁ - e₂ - shift =
      min (e₁ - e₂) (max ((m₁.log2 : Int) + e₁ - (m₂.log2 + e₂) - 53) (-1074)) := by
  have target : Format.binary64.targetExponent (totalExponent m₁ e₁ - totalExponent m₂ e₂) =
      max ((m₁.log2 : Int) + e₁ - (m₂.log2 + e₂) - 53) (-1074) := by
    change max ((m₁.log2 : Int) + 1 + e₁ - (m₂.log2 + 1 + e₂) - 53) (-1074) = _
    congr 1
    omega
  rw [divCore, target]
  generalize max ((m₁.log2 : Int) + e₁ - (m₂.log2 + e₂) - 53) (-1074) = T
  refine ⟨(e₁ - e₂ - min (e₁ - e₂) T).toNat, ?_, by omega⟩
  simp only [Nat.shiftLeft_eq, Prod.mk.injEq, true_and, and_true]
  omega

/-- A quotient has bits enough before it is rounded. -/
theorem quotient_enough {m₁ m₂ : Nat} {e₁ e₂ : Int} (h₁ : 0 < m₁) (h₂ : 0 < m₂) {shift : Nat}
    (place : e₁ - e₂ - shift =
      min (e₁ - e₂) (max ((m₁.log2 : Int) + e₁ - (m₂.log2 + e₂) - 53) (-1074))) :
    e₁ - e₂ - shift ≤ Format.binary64.targetExponent
      (totalExponent (m₁ * 2 ^ shift / m₂) (e₁ - e₂ - shift)) := by
  rw [targetExponent_eq]
  by_cases whole : m₂.log2 + 1 ≤ m₁.log2 + shift
  · have power : 2 ^ (m₁.log2 + shift - (m₂.log2 + 1)) ≤ m₁ * 2 ^ shift / m₂ := by
      rw [Nat.le_div_iff_mul_le h₂]
      calc 2 ^ (m₁.log2 + shift - (m₂.log2 + 1)) * m₂
          ≤ 2 ^ (m₁.log2 + shift - (m₂.log2 + 1)) * 2 ^ (m₂.log2 + 1) :=
            Nat.mul_le_mul_left _ Nat.lt_log2_self.le
        _ = 2 ^ m₁.log2 * 2 ^ shift := by
            rw [← Nat.pow_add, ← Nat.pow_add, Nat.sub_add_cancel whole]
        _ ≤ m₁ * 2 ^ shift := Nat.mul_le_mul_right _ (Nat.log2_self_le h₁.ne')
    have some : m₁ * 2 ^ shift / m₂ ≠ 0 := (Nat.lt_of_lt_of_le (Nat.two_pow_pos _) power).ne'
    have bits := (Nat.le_log2 some).mpr power
    omega
  · omega

/-- A quotient is rounded to the number in whose interval it lies. -/
theorem div_finite {s₁ s₂ : Sign} {m₁ m₂ m : Nat} {e₁ e₂ e : Int} (h₁ : 0 < m₁) (h₂ : 0 < m₂)
    (canonical : Canonical m e) (nearest : Nearest m e ((m₁ * 2 ^ e₁) / (m₂ * 2 ^ e₂))) :
    div .binary64 (.finite s₁ m₁ e₁ h₁) (.finite s₂ m₂ e₂ h₂) =
      .finite (s₁ / s₂) m e canonical.positive := by
  obtain ⟨shift, core, place⟩ := div_divCore m₁ m₂ e₁ e₂
  have units : ((m₁ * 2 ^ e₁) / (m₂ * 2 ^ e₂) : ℚ) / 2 ^ (e₁ - e₂ - shift) =
      ((m₁ * 2 ^ shift : Nat) : ℚ) / m₂ := by
    have below : (m₂ : ℚ) ≠ 0 := by exact_mod_cast h₂.ne'
    rw [zpow_sub₀ two_ne_zero, zpow_sub₀ two_ne_zero, zpow_natCast]
    push_cast
    field_simp
  change roundWithAccuracy .binary64 (s₁ / s₂) (divCore .binary64 m₁ e₁ m₂ e₂).1
    (divCore .binary64 m₁ e₁ m₂ e₂).2.1 (divCore .binary64 m₁ e₁ m₂ e₂).2.2 = _
  rw [core]
  apply roundWithAccuracy_eq (s₁ / s₂) canonical nearest
  · rw [units]
    exact tells_quotient _ h₂
  · exact quotient_enough h₁ h₂ place

/-- A product with bits enough is rounded to the number in whose interval it lies. -/
theorem mul_finite {s₁ s₂ : Sign} {m₁ m₂ m : Nat} {e₁ e₂ e : Int} (h₁ : 0 < m₁) (h₂ : 0 < m₂)
    (bits : 2 ^ 52 ≤ m₁ * m₂) (canonical : Canonical m e)
    (nearest : Nearest m e ((m₁ * m₂ : Nat) * 2 ^ (e₁ + e₂))) :
    mul .binary64 (.finite s₁ m₁ e₁ h₁) (.finite s₂ m₂ e₂ h₂) =
      .finite (s₁ * s₂) m e canonical.positive := by
  change roundWithAccuracy .binary64 (s₁ * s₂) (m₁ * m₂) (e₁ + e₂) .exact = _
  apply roundWithAccuracy_eq (s₁ * s₂) canonical nearest
  · rw [mul_div_cancel_right₀ _ (by positivity)]
    exact tells_exact _
  · rw [targetExponent_eq]
    have log := (Nat.le_log2 (Nat.mul_pos h₁ h₂).ne').mpr bits
    omega

/-! ### Whole numbers -/

/-- A number that is stored lies in its own interval. -/
theorem nearest_self (m : Nat) (e : Int) : Nearest m e (m * 2 ^ e) := by
  have same : (m * 2 ^ e / 2 ^ e : ℚ) = m := mul_div_cancel_right₀ _ (by positivity)
  refine ⟨?_, ?_, ?_⟩
  · simp [same]
  · simp [same]
  · intro least _
    rw [same, least]
    norm_num

/-- The mantissa of a whole number that fits, shifted up as far as it goes. -/
theorem canonical_ofNat {n : Nat} (positive : 0 < n) (bits : n < 2 ^ 53) :
    Canonical (n * 2 ^ (52 - n.log2)) (-((52 - n.log2 : Nat) : Int)) := by
  have log : n.log2 ≤ 52 := Nat.le_of_lt_succ ((Nat.log2_lt positive.ne').mpr bits)
  have full : 2 ^ 52 ≤ n * 2 ^ (52 - n.log2) := by
    calc 2 ^ 52 = 2 ^ n.log2 * 2 ^ (52 - n.log2) := by rw [← Nat.pow_add, Nat.add_sub_cancel' log]
      _ ≤ n * 2 ^ (52 - n.log2) := Nat.mul_le_mul_right _ (Nat.log2_self_le positive.ne')
  refine ⟨Nat.lt_of_lt_of_le (by decide) full, ?_, by omega, .inl full⟩
  calc n * 2 ^ (52 - n.log2) < 2 ^ (n.log2 + 1) * 2 ^ (52 - n.log2) :=
        Nat.mul_lt_mul_of_pos_right Nat.lt_log2_self (Nat.two_pow_pos _)
    _ = 2 ^ 53 := by rw [← Nat.pow_add]; congr 1; omega

/-- A whole number that fits is converted to itself. -/
theorem ofNat_of_fits {n : Nat} (positive : 0 < n) (bits : n < 2 ^ 53) :
    UnpackedFloat.ofNat .binary64 n = .finite .positive (n * 2 ^ (52 - n.log2))
      (-((52 - n.log2 : Nat) : Int)) (canonical_ofNat positive bits).positive := by
  have log : n.log2 ≤ 52 := Nat.le_of_lt_succ ((Nat.log2_lt positive.ne').mpr bits)
  have target :
      Format.binary64.targetExponent (totalExponent n 0) = -((52 - n.log2 : Nat) : Int) := by
    rw [targetExponent_eq]
    omega
  have decreased : decreaseExponent n 0 (-((52 - n.log2 : Nat) : Int)) =
      (n * 2 ^ (52 - n.log2), -((52 - n.log2 : Nat) : Int)) := by
    rw [decreaseExponent, Nat.shiftLeft_eq]
    simp
  have above : compare (n : Int) 0 = .gt := compare_gt_iff_gt.mpr (by omega)
  have canonical := canonical_ofNat positive bits
  have rounded : UnpackedFloat.ofNat .binary64 n = roundWithAccuracy .binary64 .positive
      (n * 2 ^ (52 - n.log2)) (-((52 - n.log2 : Nat) : Int)) .exact := by
    simp only [UnpackedFloat.ofNat, UnpackedFloat.ofInt, UnpackedFloat.normalize, above,
      Int.toNat_natCast, UnpackedFloat.round, target, decreased]
  rw [rounded]
  apply roundWithAccuracy_eq .positive canonical (nearest_self _ _)
  · rw [mul_div_cancel_right₀ _ (by positivity)]
    exact tells_exact _
  · rw [targetExponent_eq]
    cases canonical.full with
    | inl full => rw [canonical.log2_of_full full]; omega
    | inr least => omega

theorem ofNat_value (n : Nat) :
    ((n * 2 ^ (52 - n.log2) : Nat) : ℚ) * 2 ^ (-((52 - n.log2 : Nat) : Int)) = n := by
  rw [zpow_neg, zpow_natCast]
  push_cast
  field_simp

/-! ### Powers of ten -/

/-- The parts of a power of ten, with all the bits of the mantissa. -/
def isPowerOfTen (k : Nat) : UnpackedFloat → Bool
  | .finite .positive m e _ => m * 2 ^ e.toNat = 10 ^ k * 2 ^ (-e).toNat && 2 ^ 52 ≤ m
  | _ => false

theorem isPowerOfTen_table : ∀ k : Fin 23,
    isPowerOfTen k Float.exactlyRepresentablePowersOfTen[k].toModel.unpack = true := by
  decide +kernel

theorem exists_of_isPowerOfTen {k : Nat} {u : UnpackedFloat} (power : isPowerOfTen k u = true) :
    ∃ m e h, u = .finite .positive m e h ∧ (m * 2 ^ e : ℚ) = 10 ^ k ∧ 2 ^ 52 ≤ m := by
  match u, power with
  | .finite .positive m e h, power =>
    change (decide (_ = _) && decide (_ ≤ _)) = true at power
    rw [Bool.and_eq_true, decide_eq_true_eq, decide_eq_true_eq] at power
    refine ⟨m, e, h, rfl, ?_, power.2⟩
    have same : (m * 2 ^ e.toNat : ℚ) = 10 ^ k * 2 ^ (-e).toNat := by exact_mod_cast power.1
    have sides : e = (e.toNat : Int) - ((-e).toNat : Int) := by omega
    rw [sides, zpow_sub₀ two_ne_zero, zpow_natCast, zpow_natCast, ← mul_div_assoc, same]
    exact mul_div_cancel_right₀ _ (by positivity)

/-! ### Digits and a power of ten -/

/-- A whole number that fits is stored as it is. -/
theorem unpack_toFloat {n : Nat} (positive : 0 < n) (bits : n < 2 ^ 53) :
    n.toUInt64.toFloat.toModel.unpack = .finite .positive (n * 2 ^ (52 - n.log2))
      (-((52 - n.log2 : Nat) : Int)) (canonical_ofNat positive bits).positive := by
  have same : n.toUInt64.toNat = n := by
    rw [UInt64.toNat_ofNat']
    exact Nat.mod_eq_of_lt (bits.trans (by decide))
  change unpack .binary64 (pack .binary64 (UnpackedFloat.ofNat .binary64 n.toUInt64.toNat)) = _
  rw [same, ofNat_of_fits positive bits]
  exact unpack_pack (canonical_ofNat positive bits) (by rw [greatestExponent]; omega)

theorem toModel_ofScientific_small {m k : Nat} (positive : 0 < m) (bits : m < 2 ^ 53)
    (small : k ≤ 22) {n : Nat} {e : Int} (canonical : Canonical n e)
    (nearest : Nearest n e (m / 10 ^ k)) :
    (Float.ofScientific m true k).toModel = .pack (.finite .positive n e canonical.positive) := by
  obtain ⟨t, f, h, power, value, -⟩ := exists_of_isPowerOfTen (isPowerOfTen_table ⟨k, by omega⟩)
  have divided : Float.ofScientific m true k =
      m.toUInt64.toFloat / Float.exactlyRepresentablePowersOfTen[(⟨k, by omega⟩ : Fin 23)] := by
    rw [Float.ofScientific, dif_pos ⟨bits, small⟩, if_pos rfl]
    rfl
  rw [divided]
  change Float.Model.pack (div .binary64 m.toUInt64.toFloat.toModel.unpack
    Float.exactlyRepresentablePowersOfTen[(⟨k, by omega⟩ : Fin 23)].toModel.unpack) = _
  rw [power, unpack_toFloat positive bits, div_finite _ h canonical]
  · rfl
  · rw [value, ← ofNat_value m] at *
    exact nearest

theorem toModel_ofScientific_whole_small {m : Nat} (positive : 0 < m) (bits : m < 2 ^ 53)
    {n : Nat} {e : Int} (canonical : Canonical n e) (nearest : Nearest n e m) :
    (Float.ofScientific m false 0).toModel = .pack (.finite .positive n e canonical.positive) := by
  obtain ⟨t, f, h, power, value, full⟩ := exists_of_isPowerOfTen (isPowerOfTen_table 0)
  have multiplied : Float.ofScientific m false 0 =
      m.toUInt64.toFloat * Float.exactlyRepresentablePowersOfTen[(0 : Fin 23)] := by
    rw [Float.ofScientific, dif_pos ⟨bits, Nat.zero_le 22⟩, if_neg Bool.false_ne_true]
    rfl
  rw [multiplied]
  change Float.Model.pack (mul .binary64 m.toUInt64.toFloat.toModel.unpack
    Float.exactlyRepresentablePowersOfTen[(0 : Fin 23)].toModel.unpack) = _
  rw [power, unpack_toFloat positive bits, mul_finite _ h _ canonical]
  · rfl
  · have value : (t * 2 ^ f : ℚ) = 1 := value
    have product : ((m * 2 ^ (52 - m.log2) * t : Nat) : ℚ) *
        2 ^ (-((52 - m.log2 : Nat) : Int) + f) = m := by
      rw [zpow_add₀ two_ne_zero, Nat.cast_mul, mul_mul_mul_comm, value, mul_one, ofNat_value]
    rw [product]
    exact nearest
  · exact full.trans (Nat.le_mul_of_pos_left t (canonical_ofNat positive bits).positive)

/-- The general way, a quotient. -/
theorem ofScientific_quotient {m k : Nat} (positive : 0 < m) (some : 0 < k)
    (reach : k ≤ 2048 + m.log2) {n : Nat} {e : Int} (canonical : Canonical n e)
    (nearest : Nearest n e (m / 10 ^ k)) :
    UnpackedFloat.ofScientific .binary64 m (-(k : Int)) =
      .finite .positive n e canonical.positive := by
  rw [UnpackedFloat.ofScientific, dif_neg positive.ne']
  rw [if_neg (by change ¬ -(k : Int) > 2048; omega),
    if_neg (by change ¬ -(k : Int) < -(2048 + (m.log2 : Int)); omega),
    if_neg (by omega), div_finite positive _ canonical]
  · rfl
  · rw [Int.neg_neg, Int.toNat_natCast, zpow_zero, mul_one, mul_one]
    push_cast
    exact nearest

/-- The general way, a product with bits to spare. -/
theorem ofScientific_whole {m : Nat} (positive : 0 < m) {n : Nat} {e : Int}
    (canonical : Canonical n e) (nearest : Nearest n e m) :
    UnpackedFloat.ofScientific .binary64 m 0 = .finite .positive n e canonical.positive := by
  rw [UnpackedFloat.ofScientific, dif_neg positive.ne']
  rw [if_neg (by change ¬ (0 : Int) > 2048; omega),
    if_neg (by change ¬ (0 : Int) < -(2048 + (m.log2 : Int)); omega),
    if_pos (Int.le_refl 0), mul_finite _ _ _ canonical]
  · rfl
  · have product : ((m <<< 53 * 10 ^ (0 : Int).toNat : Nat) : ℚ) * 2 ^ (-(53 : Int) + 0) = m := by
      rw [Nat.shiftLeft_eq, Int.toNat_zero, pow_zero, mul_one, add_zero, zpow_neg]
      push_cast
      norm_num
      rw [mul_assoc]
      norm_num
    change Nearest n e (((m <<< 53 * 10 ^ (0 : Int).toNat : Nat) : ℚ) * 2 ^ (-(53 : Int) + 0))
    rw [product]
    exact nearest
  · change 2 ^ 52 ≤ m <<< 53 * 10 ^ (0 : Int).toNat
    rw [Nat.shiftLeft_eq, Int.toNat_zero, pow_zero, mul_one]
    omega

/-- Digits behind the point are read as the number in whose interval their value lies. -/
theorem toModel_ofScientific {m k : Nat} (positive : 0 < m) (some : 0 < k)
    (reach : k ≤ 2048 + m.log2) {n : Nat} {e : Int} (canonical : Canonical n e)
    (nearest : Nearest n e (m / 10 ^ k)) :
    (Float.ofScientific m true k).toModel = .pack (.finite .positive n e canonical.positive) := by
  by_cases small : m < 2 ^ 53 ∧ k ≤ 22
  · exact toModel_ofScientific_small positive small.1 small.2 canonical nearest
  · rw [Float.ofScientific, dif_neg small, if_pos rfl]
    have negated : Int.negOfNat k = -(k : Int) := Int.negOfNat_eq
    change Float.Model.pack (UnpackedFloat.ofScientific .binary64 m (Int.negOfNat k)) = _
    rw [negated, ofScientific_quotient positive some reach canonical nearest]

/-- A whole number is read as the number in whose interval it lies. -/
theorem toModel_ofScientific_whole {m : Nat} (positive : 0 < m) {n : Nat} {e : Int}
    (canonical : Canonical n e) (nearest : Nearest n e m) :
    (Float.ofScientific m false 0).toModel = .pack (.finite .positive n e canonical.positive) := by
  by_cases small : m < 2 ^ 53 ∧ 0 ≤ 22
  · exact toModel_ofScientific_whole_small positive small.1 canonical nearest
  · rw [Float.ofScientific, dif_neg small, if_neg Bool.false_ne_true]
    change Float.Model.pack (UnpackedFloat.ofScientific .binary64 m 0) = _
    rw [ofScientific_whole positive canonical nearest]

end HardwareLinker.Binary64
