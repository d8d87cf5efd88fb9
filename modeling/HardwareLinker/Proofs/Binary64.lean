import Mathlib.Algebra.Group.Nat.Defs
import HardwareLinker.Binary64

/-!
Binary64 numbers as arithmetic sees them. An operation takes both operands apart, computes with the
parts and puts the result together; storing a result and reading it back keeps its sign. A pattern
that is no number goes through every operation and compares with nothing.
-/

namespace HardwareLinker
namespace Binary64

open Float.Model

/-! ### Fields -/

/-- The leading one that is not stored stands above the mantissa. -/
theorem toNat_one_append (mantissa : BitVec 52) :
    (1#1 ++ mantissa).toNat = 2 ^ 52 + mantissa.toNat := by
  rw [BitVec.toNat_append, ← Nat.shiftLeft_add_eq_or_of_lt mantissa.isLt]
  rfl

/-- What the three fields of a pattern stand for. -/
def ofFields (s : UnpackedFloat.Sign) (exponent : BitVec 11) (mantissa : BitVec 52) :
    UnpackedFloat :=
  if exponent = -1#11 then
    if mantissa = 0#52 then .infinity s else .notANumber
  else if exponent = 0#11 then
    if zero : mantissa = 0#52 then .zero s
    else .finite s mantissa.toNat ((exponent.toNat : Int) - 1075 + 1)
      (Nat.pos_of_ne_zero fun none => zero (BitVec.eq_of_toNat_eq none))
  else .finite s (1#1 ++ mantissa).toNat ((exponent.toNat : Int) - 1075)
    (toNat_one_append mantissa ▸ Nat.add_pos_left (Nat.two_pow_pos 52) _)

theorem ofFields_cases (s : UnpackedFloat.Sign) (e : BitVec 11) (m : BitVec 52) :
    e = -1#11 ∧ m = 0#52 ∧ ofFields s e m = .infinity s ∨
    e = -1#11 ∧ m ≠ 0#52 ∧ ofFields s e m = .notANumber ∨
    e = 0#11 ∧ m = 0#52 ∧ ofFields s e m = .zero s ∨
    e = 0#11 ∧ (∃ positive, ofFields s e m = .finite s m.toNat (-1074) positive) ∨
    e ≠ -1#11 ∧ e ≠ 0#11 ∧ ∃ positive,
      ofFields s e m = .finite s (1#1 ++ m).toNat ((e.toNat : Int) - 1075) positive := by
  by_cases ones : e = -1#11
  · by_cases zero : m = 0#52
    · exact .inl ⟨ones, zero, by rw [ofFields, if_pos ones, if_pos zero]⟩
    · exact .inr (.inl ⟨ones, zero, by rw [ofFields, if_pos ones, if_neg zero]⟩)
  · by_cases none : e = 0#11
    · by_cases zero : m = 0#52
      · exact .inr (.inr (.inl ⟨none, zero, by
          rw [ofFields, if_neg ones, if_pos none, dif_pos zero]⟩))
      · refine .inr (.inr (.inr (.inl ⟨none, ?_⟩)))
        rw [ofFields, if_neg ones, if_pos none, dif_neg zero, none]
        exact ⟨_, rfl⟩
    · exact .inr (.inr (.inr (.inr ⟨ones, none, _, by rw [ofFields, if_neg ones, if_neg none]⟩)))

theorem unpack_eq (b : BitVec 64) :
    UnpackedFloat.unpack .binary64 b =
      ofFields (.ofBitVec (@UnpackedFloat.unpackSign .binary64 b))
        (@UnpackedFloat.unpackExponent .binary64 b)
        (@UnpackedFloat.unpackMantissa .binary64 b) :=
  rfl

theorem sign_packComponents {spec : Format} (s : UnpackedFloat.Sign) (e : BitVec spec.exponentBits)
    (m : BitVec spec.mantissaBitsWithoutImplicit) : UnpackedFloat.Sign.ofBitVec
      (UnpackedFloat.unpackSign (UnpackedFloat.packComponents spec s e m)) = s := by
  have bit : UnpackedFloat.unpackSign (UnpackedFloat.packComponents spec s e m) = s.toBitVec := by
    ext i hi
    obtain rfl : i = 0 := by omega
    unfold UnpackedFloat.unpackSign UnpackedFloat.packComponents
    simp +arith [BitVec.getElem_append]
  rw [bit]
  cases s <;> rfl

/-- Fields that are put together are read back. -/
theorem unpack_packComponents (s : UnpackedFloat.Sign) (e : BitVec 11) (m : BitVec 52) :
    UnpackedFloat.unpack .binary64 (UnpackedFloat.packComponents .binary64 s e m) =
      ofFields s e m := by
  rw [unpack_eq, sign_packComponents, UnpackedFloat.unpackExponent_packComponents,
    UnpackedFloat.unpackMantissa_packComponents]

/-- The pattern of a number: infinity where the exponent is too large, and without the leading one
where the mantissa has all its bits. -/
theorem pack_finite (s : UnpackedFloat.Sign) (m : Nat) (e : Int) (positive : 0 < m) :
    UnpackedFloat.pack .binary64 (.finite s m e positive) =
      if 2 ^ 11 ≤ (e + 1075).toNat + 1 then UnpackedFloat.packedInfinity .binary64 s
      else if m.log2 + 1 = 53 then
        UnpackedFloat.packComponents .binary64 s (BitVec.ofNat 11 (e + 1075).toNat)
          (BitVec.ofNat 52 m)
      else UnpackedFloat.packComponents .binary64 s 0#11 (BitVec.ofNat 52 m) := by
  have biased : e + (1023 : Nat) + (52 : Nat) = e + 1075 := by omega
  rw [← biased]
  rfl

/-! ### Patterns that are no number -/

theorem toNat_magnitude (x : Binary64) : x.magnitude.toNat = x.bits.toNat % 2 ^ 63 := by
  rw [magnitude, UInt64.toNat_and, show (~~~signBit).toNat = 2 ^ 63 - 1 by decide,
    Nat.and_two_pow_sub_one_eq_mod]

theorem isNaN_iff {x : Binary64} :
    x.isNaN = true ↔ infinityBits.toNat < x.bits.toNat % 2 ^ 63 := by
  rw [isNaN, decide_eq_true_iff, UInt64.lt_iff_toNat_lt, toNat_magnitude]

theorem isNaN_quieted {x : Binary64} (h : x.isNaN = true) : x.quieted.isNaN = true := by
  have hle : x.magnitude.toNat ≤ x.quieted.magnitude.toNat := by
    rw [quieted, magnitude, magnitude, UInt64.toNat_and, UInt64.toNat_and, UInt64.toNat_or,
      Nat.and_or_distrib_right]
    exact Nat.left_le_or
  rw [isNaN, decide_eq_true_iff, UInt64.lt_iff_toNat_lt] at h ⊢
  exact Nat.lt_of_lt_of_le h hle

/-- The exponent of such a pattern is all ones and its mantissa is not zero. -/
theorem unpack_of_isNaN {x : Binary64} (h : x.isNaN = true) :
    UnpackedFloat.unpack .binary64 x.bits.toBitVec = .notANumber := by
  rw [isNaN_iff, show infinityBits.toNat = 0x7FF0000000000000 by decide] at h
  have hbits : x.bits.toBitVec.toNat = x.bits.toNat := rfl
  have hexponent : @UnpackedFloat.unpackExponent .binary64 x.bits.toBitVec = -1#_ := by
    apply BitVec.eq_of_toNat_eq
    simp [UnpackedFloat.unpackExponent, Nat.shiftRight_eq_div_pow]
    omega
  have hmantissa : @UnpackedFloat.unpackMantissa .binary64 x.bits.toBitVec ≠ 0#_ := by
    intro hzero
    have := congrArg BitVec.toNat hzero
    simp [UnpackedFloat.unpackMantissa] at this
    omega
  rw [unpack_eq, ofFields, if_pos hexponent, if_neg hmantissa]

/-! ### Parts -/

/-- The parts of a number, as arithmetic sees them. -/
def parts (x : Binary64) : UnpackedFloat := x.toFloat.toModel.unpack

/-- Parts as they are read back once stored. -/
def repacked (u : UnpackedFloat) : UnpackedFloat :=
  UnpackedFloat.unpack .binary64 (UnpackedFloat.pack .binary64 u)

/-- Parts of a number with this sign. -/
inductive Signed (s : UnpackedFloat.Sign) : UnpackedFloat → Prop where
  | infinity : Signed s (.infinity s)
  | zero : Signed s (.zero s)
  | finite (m : Nat) (e : Int) (hm : 0 < m) : Signed s (.finite s m e hm)

theorem Signed.isNaN_eq {s : UnpackedFloat.Sign} {u : UnpackedFloat} (signed : Signed s u) :
    u.isNaN = false := by
  cases signed <;> rfl

/-! ### Parts put together and taken apart -/

/-- Unless all ones stand for no number, the sign is read back. -/
theorem signed_unpack {s : UnpackedFloat.Sign} {e : BitVec 11} {m : BitVec 52}
    (number : e = -1#11 → m = 0#52) :
    Signed s (UnpackedFloat.unpack .binary64 (UnpackedFloat.packComponents .binary64 s e m)) := by
  rw [unpack_packComponents]
  rcases ofFields_cases s e m with ⟨-, -, same⟩ | ⟨ones, some, -⟩ | ⟨-, -, same⟩ | ⟨-, _, same⟩ |
    ⟨-, -, _, same⟩
  · exact same ▸ .infinity
  · exact absurd (number ones) some
  · exact same ▸ .zero
  · exact same ▸ .finite ..
  · exact same ▸ .finite ..

theorem unpack_ne_infinity {s s' : UnpackedFloat.Sign} {e : BitVec 11} {m : BitVec 52}
    (small : e ≠ -1#11) :
    UnpackedFloat.unpack .binary64 (UnpackedFloat.packComponents .binary64 s e m) ≠
      .infinity s' := by
  rw [unpack_packComponents]
  rcases ofFields_cases s e m with ⟨ones, -⟩ | ⟨ones, -⟩ | ⟨-, -, same⟩ | ⟨-, _, same⟩ |
    ⟨-, -, _, same⟩
  · exact absurd ones small
  · exact absurd ones small
  all_goals
    rw [same]
    exact nofun

theorem ofNat_ne_ones {n : Nat} (small : ¬ 2 ^ 11 ≤ n + 1) : BitVec.ofNat 11 n ≠ -1#11 := by
  intro same
  have := congrArg BitVec.toNat same
  simp at this
  omega

theorem Signed.repack {s : UnpackedFloat.Sign} {u : UnpackedFloat} (signed : Signed s u) :
    Signed s (repacked u) := by
  unfold repacked
  cases signed with
  | infinity => exact signed_unpack fun _ => rfl
  | zero => exact signed_unpack fun _ => rfl
  | finite m e hm =>
      rw [pack_finite]
      split
      · exact signed_unpack fun _ => rfl
      · next small =>
        split
        · exact signed_unpack fun ones => absurd ones (ofNat_ne_ones small)
        · exact signed_unpack fun ones => absurd ones (by decide)

theorem parts_eq (x : Binary64) : x.parts =
    repacked (UnpackedFloat.unpack .binary64 x.bits.toBitVec) := rfl

/-- Zero, or an exponent below the one that stands for infinity. -/
def Bounded : UnpackedFloat → Prop
  | .zero _ => True
  | .finite _ _ e _ => e + 1075 < 2047
  | _ => False

theorem bounded_of_isFinite {x : Binary64} (finite : x.isFinite = true) :
    Bounded (UnpackedFloat.unpack .binary64 x.bits.toBitVec) := by
  have small : (@UnpackedFloat.unpackExponent .binary64 x.bits.toBitVec).toNat < 2047 := by
    rw [isFinite, decide_eq_true_iff, UInt64.lt_iff_toNat_lt, toNat_magnitude,
      show infinityBits.toNat = 0x7FF0000000000000 by decide] at finite
    simp [UnpackedFloat.unpackExponent, Nat.shiftRight_eq_div_pow]
    omega
  have some : @UnpackedFloat.unpackExponent .binary64 x.bits.toBitVec ≠ -1#11 := by
    intro ones
    rw [ones] at small
    exact absurd small (by decide)
  rw [unpack_eq]
  rcases ofFields_cases (.ofBitVec (@UnpackedFloat.unpackSign .binary64 x.bits.toBitVec))
    (@UnpackedFloat.unpackExponent .binary64 x.bits.toBitVec)
    (@UnpackedFloat.unpackMantissa .binary64 x.bits.toBitVec)
    with ⟨ones, -⟩ | ⟨ones, -⟩ | ⟨-, -, same⟩ | ⟨-, _, same⟩ | ⟨-, -, _, same⟩
  · exact absurd ones some
  · exact absurd ones some
  · exact same ▸ trivial
  · rw [same]
    change (-1074 : Int) + 1075 < 2047
    decide
  · rw [same]
    change (_ : Int) - 1075 + 1075 < 2047
    omega

/-- Read back, bounded parts are a number that is not infinite. -/
theorem Bounded.repack {u : UnpackedFloat} (bounded : Bounded u) :
    ∃ s, Signed s (repacked u) ∧ repacked u ≠ .infinity s := by
  cases u with
  | notANumber => cases bounded
  | infinity s => cases bounded
  | zero s => exact ⟨s, Signed.zero.repack, unpack_ne_infinity (by decide)⟩
  | finite s m e hm =>
      refine ⟨s, (Signed.finite m e hm).repack, ?_⟩
      rw [repacked, pack_finite]
      split
      · next large =>
        change e + 1075 < 2047 at bounded
        omega
      · next small =>
        split
        · exact unpack_ne_infinity (ofNat_ne_ones small)
        · exact unpack_ne_infinity (by decide)

theorem exists_signed {x : Binary64} (number : x.isNaN = false) : ∃ s, Signed s x.parts := by
  rw [parts_eq]
  suffices ∃ s, Signed s (UnpackedFloat.unpack .binary64 x.bits.toBitVec) from
    this.imp fun _ signed => signed.repack
  refine ⟨.ofBitVec (@UnpackedFloat.unpackSign .binary64 x.bits.toBitVec), ?_⟩
  rw [unpack_eq]
  rcases ofFields_cases (.ofBitVec (@UnpackedFloat.unpackSign .binary64 x.bits.toBitVec))
    (@UnpackedFloat.unpackExponent .binary64 x.bits.toBitVec)
    (@UnpackedFloat.unpackMantissa .binary64 x.bits.toBitVec)
    with ⟨-, -, same⟩ | ⟨ones, mantissa, -⟩ | ⟨-, -, same⟩ | ⟨-, _, same⟩ | ⟨-, -, _, same⟩
  · exact same ▸ .infinity
  · exfalso
    rw [Bool.eq_false_iff, Ne, isNaN_iff,
      show infinityBits.toNat = 0x7FF0000000000000 by decide] at number
    apply number
    have exponent := congrArg BitVec.toNat ones
    have bits : x.bits.toBitVec.toNat = x.bits.toNat := rfl
    have low : (@UnpackedFloat.unpackMantissa .binary64 x.bits.toBitVec).toNat ≠ 0 := fun zero =>
      mantissa (BitVec.eq_of_toNat_eq zero)
    simp [UnpackedFloat.unpackExponent, UnpackedFloat.unpackMantissa,
      Nat.shiftRight_eq_div_pow] at exponent low
    omega
  · exact same ▸ .zero
  · exact same ▸ .finite ..
  · exact same ▸ .finite ..

theorem not_isNaN_of_signed {x : Binary64} {s : UnpackedFloat.Sign} (signed : Signed s x.parts) :
    x.isNaN = false := by
  rw [Bool.eq_false_iff]
  intro none
  rw [parts_eq, unpack_of_isNaN none] at signed
  cases signed

theorem parts_of_isNaN {x : Binary64} (none : x.isNaN = true) : x.parts = .notANumber := by
  rw [parts_eq, unpack_of_isNaN none]
  rfl

/-! ### Comparisons -/

theorem le_iff {x y : Binary64} : x ≤ y ↔ x.parts.le y.parts = true :=
  ⟨fun h => of_decide_eq_true h, fun h => decide_eq_true h⟩

theorem lt_iff {x y : Binary64} : x < y ↔ x.parts.lt y.parts = true :=
  ⟨fun h => of_decide_eq_true h, fun h => decide_eq_true h⟩

theorem not_le_of_isNaN {x y : Binary64} (none : y.isNaN = true) : ¬ x ≤ y := by
  rw [le_iff, parts_of_isNaN none]
  cases x.parts <;> exact Bool.false_ne_true

theorem not_lt_of_isNaN {x y : Binary64} (none : y.isNaN = true) : ¬ x < y := by
  rw [lt_iff, parts_of_isNaN none]
  cases x.parts <;> exact Bool.false_ne_true

/-- Of two numbers one is the greater or the other at most as great; here the other is zero. -/
theorem pos_of_not_nonpos {x : Binary64} (number : x.isNaN = false) (above : ¬ x ≤ 0) : 0 < x := by
  obtain ⟨s, signed⟩ := exists_signed number
  rw [le_iff] at above
  rw [lt_iff]
  change ¬ x.parts.le (.zero .positive) = true at above
  change (UnpackedFloat.zero .positive).lt x.parts = true
  cases s with
  | positive =>
    generalize x.parts = u at *
    cases signed with
    | infinity => rfl
    | zero => exact absurd rfl above
    | finite => rfl
  | negative =>
    generalize x.parts = u at *
    cases signed <;> exact absurd rfl above

theorem nonpos_iff {x : Binary64} : x ≤ 0 ↔ ¬ 0 < x ∧ x.isNaN = false := by
  have zero : (0 : Binary64).parts = .zero .positive := rfl
  by_cases none : x.isNaN = true
  · rw [le_iff, parts_of_isNaN none, none]
    exact ⟨fun below => absurd below Bool.false_ne_true, nofun⟩
  · rw [Bool.not_eq_true] at none
    obtain ⟨s, signed⟩ := exists_signed none
    rw [le_iff, lt_iff, zero, and_iff_left none]
    generalize x.parts = u at signed
    have turned : u.le (.zero .positive) = !(UnpackedFloat.zero .positive).lt u := by
      cases s <;> cases signed <;> rfl
    rw [turned, Bool.not_eq_true', Bool.not_eq_true]

/-! ### Results -/

theorem isNaN_combine_left {f : Float → Float → Float} {x y : Binary64} (none : x.isNaN = true) :
    (combine f x y).isNaN = true := by
  rw [combine, if_pos none]
  exact isNaN_quieted none

theorem isNaN_combine_right {f : Float → Float → Float} {x y : Binary64} (none : y.isNaN = true) :
    (combine f x y).isNaN = true := by
  unfold combine
  split
  · next left => exact isNaN_quieted left
  · exact isNaN_quieted none

/-- A result that is a number is stored and read back twice. -/
theorem parts_ofFloat {r : Float} {u : UnpackedFloat} (hr : r.toModel = .pack u)
    {s : UnpackedFloat.Sign} (signed : Signed s u) : (ofFloat r).parts = repacked (repacked u) := by
  have stored : r.toModel.unpack = repacked u := by
    rw [hr]
    rfl
  have number : r.isNaN = false := by
    change r.toModel.unpack.isNaN = false
    rw [stored]
    exact signed.repack.isNaN_eq
  rw [ofFloat, number]
  change repacked r.toModel.unpack = _
  rw [stored]

theorem parts_combine {f : Float → Float → Float}
    {g : UnpackedFloat → UnpackedFloat → UnpackedFloat}
    (hf : ∀ a b : Float, (f a b).toModel = .pack (g a.toModel.unpack b.toModel.unpack))
    {x y : Binary64} (hx : x.isNaN = false) (hy : y.isNaN = false) {s : UnpackedFloat.Sign}
    (signed : Signed s (g x.parts y.parts)) :
    (combine f x y).parts = repacked (repacked (g x.parts y.parts)) := by
  rw [combine, hx, hy]
  exact parts_ofFloat (hf _ _) signed

theorem signed_combine {f : Float → Float → Float}
    {g : UnpackedFloat → UnpackedFloat → UnpackedFloat}
    (hf : ∀ a b : Float, (f a b).toModel = .pack (g a.toModel.unpack b.toModel.unpack))
    {x y : Binary64} (hx : x.isNaN = false) (hy : y.isNaN = false) {s : UnpackedFloat.Sign}
    (signed : Signed s (g x.parts y.parts)) : Signed s (combine f x y).parts := by
  rw [parts_combine hf hx hy signed]
  exact signed.repack.repack

theorem signed_apply {f : Float → Float} {g : UnpackedFloat → UnpackedFloat}
    (hf : ∀ a : Float, (f a).toModel = .pack (g a.toModel.unpack)) {x : Binary64}
    (hx : x.isNaN = false) {s : UnpackedFloat.Sign} (signed : Signed s (g x.parts)) :
    Signed s (apply f x).parts := by
  rw [apply, hx]
  change Signed s (ofFloat (f x.toFloat)).parts
  rw [parts_ofFloat (hf _) signed]
  exact signed.repack.repack

/-! ### A number taken from itself -/

theorem unpacked_sub_self (u : UnpackedFloat) :
    UnpackedFloat.sub .binary64 u u = .notANumber ∨
      UnpackedFloat.sub .binary64 u u = .zero .positive := by
  cases u with
  | notANumber => exact .inl rfl
  | infinity s => cases s <;> exact .inl rfl
  | zero s => cases s <;> exact .inr rfl
  | finite s m e hm =>
      -- Both operands get one exponent, so the mantissas cancel.
      right
      show UnpackedFloat.normalize _ _ _ _ = _
      rw [Int.sub_self]
      rfl

theorem ofFloat_sub_self (f : Float) : ofFloat (f - f) = noResult ∨ ofFloat (f - f) = ⟨0⟩ := by
  show ofFloat (.ofModel (.pack (.sub .binary64 f.toModel.unpack f.toModel.unpack))) = _ ∨
    ofFloat (.ofModel (.pack (.sub .binary64 f.toModel.unpack f.toModel.unpack))) = _
  rcases unpacked_sub_self f.toModel.unpack with h | h
  · rw [h]
    left
    decide +kernel
  · rw [h]
    right
    decide +kernel

theorem sub_self (x : Binary64) : (x - x).isNaN = true ∨ x - x = ⟨0⟩ := by
  show (combine (· - ·) x x).isNaN = true ∨ combine (· - ·) x x = ⟨0⟩
  unfold combine
  by_cases h : x.isNaN = true
  · rw [if_pos h]
    exact .inl (isNaN_quieted h)
  · rw [if_neg h, if_neg h]
    rcases ofFloat_sub_self x.toFloat with e | e
    · rw [e]
      exact .inl (by decide)
    · exact .inr e

theorem sub_self_of_parts {a : Binary64} {s : UnpackedFloat.Sign} {m : Nat} {e : Int} {hm : 0 < m}
    (parts : a.parts = .finite s m e hm) : a - a = ⟨0⟩ := by
  have number : a.isNaN = false := not_isNaN_of_signed (parts ▸ Signed.finite m e hm)
  have zero : UnpackedFloat.sub .binary64 a.parts a.parts = .zero .positive := by
    rw [parts]
    show UnpackedFloat.normalize _ _ _ _ = _
    rw [Int.sub_self]
    rfl
  refine (sub_self a).resolve_left fun none => ?_
  have signed : Signed .positive (a - a).parts :=
    signed_combine (fun _ _ => rfl) number number (zero ▸ Signed.zero)
  rw [not_isNaN_of_signed signed] at none
  cases none

end Binary64
end HardwareLinker
