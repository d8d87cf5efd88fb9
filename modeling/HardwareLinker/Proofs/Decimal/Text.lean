import Mathlib.Tactic.LinearCombination
import HardwareLinker.Proofs.Binary64.Signs
import HardwareLinker.Proofs.Decimal.Numeral
import HardwareLinker.Proofs.Decimal.Shortest
import HardwareLinker.Proofs.Text.Layout

/-!
The text of a number denotes the number: the digits that are written have the chosen value wherever
the point stands, and what is read from them is the number whose interval that value lies in.
-/

namespace HardwareLinker

/-! ### Digits with a point -/

/-- Digits with a point before the fraction, if there is one. -/
def pointed (whole fraction : List Char) : List Char :=
  if fraction.isEmpty then whole else whole ++ '.' :: fraction

/-- ASCII digits and no other characters. -/
def AllDigits (cs : List Char) : Prop := ∀ c ∈ cs, c.isDigit = true

namespace Numeral

theorem takeDigits_append {digits : List Char} (all : AllDigits digits) (rest : List Char)
    (stop : ∀ c ∈ rest.head?, c.isDigit = false) :
    takeDigits (digits ++ rest) = (digits, rest) := by
  rw [takeDigits, List.span_eq_takeWhile_dropWhile, List.takeWhile_append_of_pos all,
    List.dropWhile_append_of_pos all]
  cases rest with
  | nil => simp
  | cons c rest => simp [stop c rfl]

theorem readUnsigned_pointed (negative : Bool) {whole fraction : List Char} (some : whole ≠ [])
    (digits : AllDigits whole) (digits' : AllDigits fraction) :
    readUnsigned negative (pointed whole fraction) =
      .some (.finite negative (Nat.ofDigitChars 10 (whole ++ fraction) 0)
        (-(fraction.length : Int))) := by
  have taken : takeFraction (takeDigits (pointed whole fraction)).2 = (fraction, []) ∧
      (takeDigits (pointed whole fraction)).1 = whole := by
    rw [pointed]
    cases fraction with
    | nil =>
        have only := takeDigits_append digits [] (by simp)
        rw [List.append_nil] at only
        simp [only, takeFraction]
    | cons c fraction =>
        have stops := takeDigits_append digits ('.' :: c :: fraction) (by simp)
        have all := takeDigits_append digits' [] (by simp)
        rw [List.append_nil] at all
        simp [stops, takeFraction, all]
  have nonempty : whole.isEmpty = false := List.isEmpty_eq_false_iff.mpr some
  rw [readUnsigned]
  simp only [taken.1, taken.2, nonempty, Bool.false_and, Bool.false_eq_true, if_false, readExponent,
    Option.map_some, natOfDigits_eq, Int.zero_sub]

/-- No digit begins a sign or a word. -/
theorem digit_plain {c : Char} (digit : c.isDigit = true) :
    c ≠ '-' ∧ c ≠ '+' ∧ c.toLower ≠ 'i' ∧ c.toLower ≠ 'n' := by
  have lower : c.toLower = c := by
    unfold Char.toLower
    rw [dif_neg]
    intro letter
    rw [Char.isDigit, Bool.and_eq_true, decide_eq_true_eq, decide_eq_true_eq] at digit
    have least : (65 : Nat) ≤ c.val.toNat := UInt32.le_iff_toNat_le.mp letter.1
    have greatest : c.val.toNat ≤ 57 := UInt32.le_iff_toNat_le.mp digit.2
    omega
  rw [lower]
  refine ⟨?_, ?_, ?_, ?_⟩
  all_goals
    intro same
    rw [same] at digit
    exact absurd digit (by decide)

theorem ofList?_pointed (negative : Bool) {whole fraction : List Char} (some : whole ≠ [])
    (digits : AllDigits whole) (digits' : AllDigits fraction) :
    ofList? ((if negative then ['-'] else []) ++ pointed whole fraction) =
      .some (.finite negative (Nat.ofDigitChars 10 (whole ++ fraction) 0)
        (-(fraction.length : Int))) := by
  obtain ⟨first, others, begins⟩ : ∃ first others, pointed whole fraction = first :: others ∧
      first.isDigit = true := by
    cases whole with
    | nil => exact absurd rfl some
    | cons c whole =>
        rw [pointed]
        split
        · exact ⟨c, whole, rfl, digits c List.mem_cons_self⟩
        · exact ⟨c, whole ++ '.' :: fraction, rfl, digits c List.mem_cons_self⟩
  obtain ⟨minus, plus, i, n⟩ := digit_plain begins.2
  have signed : takeSign ((if negative then ['-'] else []) ++ pointed whole fraction) =
      (negative, pointed whole fraction) := by
    cases negative with
    | true => rfl
    | false =>
        rw [begins.1]
        simp [takeSign, minus, plus]
  rw [ofList?, signed]
  have no_word (word : List Char) (starts : word.head? = .some 'i' ∨ word.head? = .some 'n') :
      ((pointed whole fraction).map Char.toLower == word) = false := by
    rw [begins.1]
    apply beq_eq_false_iff_ne.mpr
    intro same
    rw [← same] at starts
    exact starts.elim (fun at_i => i (Option.some.inj at_i)) (fun at_n => n (Option.some.inj at_n))
  simp only
  rw [no_word _ (.inl rfl), no_word _ (.inl rfl), no_word _ (.inr rfl)]
  exact readUnsigned_pointed negative some digits digits'

end Numeral

namespace Decimal

theorem allDigits_toDigits (n : Nat) : AllDigits (Nat.toDigits 10 n) :=
  fun _ => Nat.isDigit_of_mem_toDigits (by decide) (by decide)

theorem allDigits_replicate (n : Nat) : AllDigits (List.replicate n '0') := by
  intro c zero
  rw [(List.mem_replicate.mp zero).2]
  decide

/-- A list is what is left without the zeros at its end, and these zeros. -/
theorem exists_trailing_zeros (cs : List Char) :
    ∃ zeros, cs = (cs.reverse.dropWhile (· == '0')).reverse ++ List.replicate zeros '0' := by
  have zeros : cs.rtakeWhile (· == '0') = List.replicate (cs.rtakeWhile (· == '0')).length '0' := by
    apply List.eq_replicate_of_mem
    intro c zero
    have test := List.mem_rtakeWhile_imp (p := (· == '0')) zero
    exact beq_iff_eq.mp test
  refine ⟨(cs.rtakeWhile (· == '0')).length, ?_⟩
  rw [← zeros]
  exact List.rdropWhile_append_rtakeWhile.symm

/-- The digits are written with their value. -/
theorem Digits.positional_eq {d : Digits} (some : d.digits ≠ 0) : ∃ whole fraction,
    d.positional.toList = pointed whole fraction ∧ whole ≠ [] ∧ AllDigits whole ∧
    AllDigits fraction ∧
      (Nat.ofDigitChars 10 (whole ++ fraction) 0 : ℚ) / 10 ^ fraction.length = d.value := by
  have text : (toString d.digits).toList = Nat.toDigits 10 d.digits := Nat.toList_repr
  rw [positional, if_neg some]
  split
  · next whole =>
    refine ⟨Nat.toDigits 10 d.digits ++ List.replicate d.exponent.toNat '0', [], ?_, ?_, ?_, ?_, ?_⟩
    · rw [String.toList_append, String.toList_ofList, text]
      rfl
    · exact fun none => Nat.toDigits_ne_nil (List.append_eq_nil_iff.mp none).1
    · intro c at_c
      exact (List.mem_append.mp at_c).elim (allDigits_toDigits _ c) (allDigits_replicate _ c)
    · exact fun c at_c => absurd at_c List.not_mem_nil
    · have power : (10 : ℚ) ^ d.exponent = 10 ^ d.exponent.toNat := by
        conv_lhs => rw [← Int.toNat_of_nonneg whole, zpow_natCast]
      rw [List.append_nil, Nat.ofDigitChars_append, Nat.ofDigitChars_replicate_zero,
        Nat.ofDigitChars_ten_toDigits, value, power]
      push_cast
      simp [mul_comm]
  · next fraction =>
    have places : ∃ places : Nat, (-d.exponent).toNat = places ∧ d.exponent = -(places : Int) :=
      ⟨_, rfl, by omega⟩
    obtain ⟨places, same, exponent⟩ := places
    simp only [same, text]
    generalize padding : places + 1 - (Nat.toDigits 10 d.digits).length = zeros
    have long : places + 1 ≤ (List.replicate zeros '0' ++ Nat.toDigits 10 d.digits).length := by
      rw [List.length_append, List.length_replicate]
      omega
    have digits : AllDigits (List.replicate zeros '0' ++ Nat.toDigits 10 d.digits) := by
      intro c at_c
      exact (List.mem_append.mp at_c).elim (allDigits_replicate _ c) (allDigits_toDigits _ c)
    have number :
        Nat.ofDigitChars 10 (List.replicate zeros '0' ++ Nat.toDigits 10 d.digits) 0 =
          d.digits := by
      rw [Nat.ofDigitChars_append, Nat.ofDigitChars_replicate_zero, Nat.mul_zero,
        Nat.ofDigitChars_ten_toDigits]
    generalize List.replicate zeros '0' ++ Nat.toDigits 10 d.digits = padded at *
    obtain ⟨trailing, split⟩ := exists_trailing_zeros (padded.drop (padded.length - places))
    generalize kept :
        ((padded.drop (padded.length - places)).reverse.dropWhile (· == '0')) = rest at *
    have parts :
        padded = padded.take (padded.length - places) ++
          (rest.reverse ++ List.replicate trailing '0') := by
      rw [← split, List.take_append_drop]
    have length : places = rest.length + trailing := by
      have := congrArg List.length split
      simp at this
      omega
    refine ⟨padded.take (padded.length - places), rest.reverse, ?_, ?_, ?_, ?_, ?_⟩
    · rw [String.toList_ofList, pointed, List.isEmpty_reverse]
    · exact List.ne_nil_of_length_pos (by rw [List.length_take]; omega)
    · exact fun c at_c => digits c (List.mem_of_mem_take at_c)
    · intro c at_c
      apply digits
      rw [parts]
      simp [List.mem_reverse.mp at_c]
    · have scaled : 10 ^ trailing * Nat.ofDigitChars 10
          (padded.take (padded.length - places) ++ rest.reverse) 0 =
          d.digits := by
        rw [← Nat.ofDigitChars_replicate_zero (b := 10), ← Nat.ofDigitChars_append,
          List.append_assoc, ← parts, number]
      have power : (10 : ℚ) ^ d.exponent * 10 ^ trailing * 10 ^ rest.length = 1 := by
        rw [exponent, length, ← zpow_natCast, ← zpow_natCast, ← zpow_add₀ (by norm_num),
          ← zpow_add₀ (by norm_num)]
        push_cast
        ring_nf
        rw [zpow_zero]
      rw [value, ← scaled, List.length_reverse, div_eq_iff (by positivity)]
      push_cast
      linear_combination -(Nat.ofDigitChars 10
        (padded.take (padded.length - places) ++ rest.reverse) 0 : ℚ) * power

/-! ### Digits that are read -/

namespace Dyadic

/-- What lies in the interval of a stored number lies between the least and the greatest of all. -/
theorem Stored.bounds {x : Dyadic} (stored : x.Stored) {v : ℚ}
    (nearest : Binary64.Nearest x.mantissa x.exponent v) :
    (2 : ℚ) ^ (-1075 : Int) ≤ v ∧ v < 2 ^ (1024 : Int) := by
  have unit : (0 : ℚ) < 2 ^ x.exponent := by positivity
  obtain ⟨below, above⟩ := abs_le.mp nearest.near
  have positive : (1 : ℚ) ≤ x.mantissa := by exact_mod_cast stored.canonical.positive
  have bits : (x.mantissa : ℚ) + 1 ≤ 2 ^ 53 := by exact_mod_cast stored.canonical.bits
  constructor
  · calc (2 : ℚ) ^ (-1075 : Int) ≤ 2 ^ (x.exponent - 1) :=
          zpow_le_zpow_right₀ one_le_two (by have := stored.canonical.least; omega)
      _ = 1 / 2 * 2 ^ x.exponent := by rw [zpow_sub_one₀ two_ne_zero]; ring
      _ ≤ v := (le_div_iff₀ unit).mp (by linarith)
  · calc v < 2 ^ 53 * 2 ^ x.exponent := (div_lt_iff₀ unit).mp (by linarith)
      _ = 2 ^ (53 + x.exponent) := by rw [zpow_add₀ two_ne_zero]; rfl
      _ ≤ 2 ^ (1024 : Int) := zpow_le_zpow_right₀ one_le_two (by have := stored.finite; omega)

end Dyadic

theorem two_pow_le_ten_pow {i j : Nat} (h : i ≤ 3 * j) : 2 ^ i ≤ 10 ^ j := by
  calc 2 ^ i ≤ 2 ^ (3 * j) := Nat.pow_le_pow_right (by decide) h
    _ = 8 ^ j := Nat.pow_mul 2 3 j
    _ ≤ 10 ^ j := Nat.pow_le_pow_left (by decide) j

theorem lt_length_add {n k i j : Nat} (small : i ≤ 3 * j) (above : 10 ^ k ≤ n * 2 ^ i) :
    k < n.repr.length + j := by
  have digits : n < 10 ^ n.repr.length :=
    (Nat.length_repr_le_iff Nat.length_repr_pos).mp (Nat.le_refl _)
  have less : 10 ^ k < 10 ^ (n.repr.length + j) := by
    calc 10 ^ k ≤ n * 2 ^ i := above
      _ < 10 ^ n.repr.length * 2 ^ i := Nat.mul_lt_mul_of_pos_right digits (Nat.two_pow_pos i)
      _ ≤ 10 ^ n.repr.length * 10 ^ j := Nat.mul_le_mul_left _ (two_pow_le_ten_pow small)
      _ = 10 ^ (n.repr.length + j) := (Nat.pow_add ..).symm
  exact (Nat.pow_lt_pow_iff_right (by decide)).mp less

theorem length_le_add {n k i j : Nat} (small : i ≤ 3 * j) (some : 0 < j)
    (below : n < 2 ^ i * 10 ^ k) : n.repr.length ≤ k + j := by
  rw [Nat.length_repr_le_iff (by omega), Nat.pow_add, Nat.mul_comm]
  exact below.trans_le (Nat.mul_le_mul_right _ (two_pow_le_ten_pow small))

theorem lt_log2_add {n k i : Nat} (above : 10 ^ k ≤ n * 2 ^ i) : k < n.log2 + 1 + i := by
  have less : 2 ^ k < 2 ^ (n.log2 + 1 + i) := by
    calc 2 ^ k ≤ 10 ^ k := Nat.pow_le_pow_left (by decide) k
      _ ≤ n * 2 ^ i := above
      _ < 2 ^ (n.log2 + 1) * 2 ^ i :=
          Nat.mul_lt_mul_of_pos_right Nat.lt_log2_self (Nat.two_pow_pos i)
      _ = 2 ^ (n.log2 + 1 + i) := (Nat.pow_add ..).symm
  exact (Nat.pow_lt_pow_iff_right (by decide)).mp less

/-- The size of a decimal is bounded by its value. -/
theorem size_bounds {n k : Nat} (least : (2 : ℚ) ^ (-1075 : Int) ≤ n / 10 ^ k)
    (greatest : (n : ℚ) / 10 ^ k < 2 ^ (1024 : Int)) :
    -400 ≤ ((toString n).length : Int) - k ∧ ((toString n).length : Int) - k ≤ 400 ∧
      k ≤ 2048 + n.log2 := by
  have power : (0 : ℚ) < 10 ^ k := by positivity
  have above : 10 ^ k ≤ n * 2 ^ 1075 := by
    rw [le_div_iff₀ power, zpow_neg, inv_mul_le_iff₀' (by positivity)] at least
    exact_mod_cast least
  have below : n < 2 ^ 1024 * 10 ^ k := by
    rw [div_lt_iff₀ power] at greatest
    exact_mod_cast greatest
  have low : k < n.repr.length + 400 := lt_length_add (by decide) above
  have high : n.repr.length ≤ k + 400 := length_le_add (by decide) (by decide) below
  have reach := lt_log2_add above
  change -400 ≤ (n.repr.length : Int) - k ∧ (n.repr.length : Int) - k ≤ 400 ∧ _
  omega

open Float.Model in
theorem toNat_packComponents (exponent : BitVec 11) (mantissa : BitVec 52) :
    (UnpackedFloat.packComponents .binary64 .positive exponent mantissa).toNat =
      exponent.toNat * 2 ^ 52 + mantissa.toNat := by
  have sign : (UnpackedFloat.Sign.positive.toBitVec ++ exponent).toNat = exponent.toNat := by
    rw [BitVec.toNat_append]
    change 0 <<< 11 ||| exponent.toNat = _
    simp
  change ((UnpackedFloat.Sign.positive.toBitVec ++ exponent) ++ mantissa).toNat = _
  rw [BitVec.toNat_append, sign, ← Nat.shiftLeft_add_eq_or_of_lt mantissa.isLt, Nat.shiftLeft_eq]

/-- The number that the bits of a magnitude stand for is put together to these bits. -/
theorem pack_ofBits {bits : UInt64} (some : bits ≠ 0) (finite : bits < Binary64.infinityBits) :
    Float.Model.UnpackedFloat.pack .binary64 (.finite .positive (Dyadic.ofBits bits).mantissa
      (Dyadic.ofBits bits).exponent (Dyadic.stored_ofBits some finite).canonical.positive) =
      bits.toBitVec := by
  have stored := Dyadic.stored_ofBits some finite
  have below := Dyadic.toNat_lt_infinityBits finite
  have parts := Dyadic.ofBits_eq bits
  apply BitVec.eq_of_toNat_eq
  change _ = bits.toNat
  by_cases least : bits.toNat / 2 ^ 52 % 2 ^ 11 = 0
  · rw [if_pos least] at parts
    have mantissa : (Dyadic.ofBits bits).mantissa = bits.toNat % 2 ^ 52 := by rw [parts]
    have short : (Dyadic.ofBits bits).mantissa < 2 ^ 52 := by omega
    rw [Binary64.pack_of_short stored.canonical stored.finite short, toNat_packComponents,
      BitVec.toNat_ofNat, BitVec.toNat_ofNat, mantissa]
    omega
  · rw [if_neg least] at parts
    have mantissa : (Dyadic.ofBits bits).mantissa = 2 ^ 52 + bits.toNat % 2 ^ 52 := by rw [parts]
    have exponent :
        (Dyadic.ofBits bits).exponent = ((bits.toNat / 2 ^ 52 % 2 ^ 11 : Nat) : Int) - 1075 := by
      rw [parts]
    rw [Binary64.pack_of_full stored.canonical stored.finite (by omega), toNat_packComponents,
      BitVec.toNat_ofNat, BitVec.toNat_ofNat, mantissa, exponent]
    omega

/-- A float with these parts has the bits. -/
theorem ofFloat_eq {bits : UInt64} (some : bits ≠ 0) (finite : bits < Binary64.infinityBits)
    {f : Float} (model : f.toModel = .pack (.finite .positive (Dyadic.ofBits bits).mantissa
      (Dyadic.ofBits bits).exponent (Dyadic.stored_ofBits some finite).canonical.positive)) :
    Binary64.ofFloat f = ⟨bits⟩ := by
  have stored := Dyadic.stored_ofBits some finite
  have number : f.isNaN = false := by
    have parts : f.toModel.unpack = .finite .positive (Dyadic.ofBits bits).mantissa
        (Dyadic.ofBits bits).exponent stored.canonical.positive := by
      rw [model]
      exact Binary64.unpack_pack stored.canonical stored.finite
    change f.toModel.unpack.isNaN = false
    rw [parts]
    rfl
  have same : f.toBits = bits := by
    change f.toModel.toBits = bits
    rw [model]
    exact congrArg UInt64.ofBitVec (pack_ofBits some finite)
  rw [Binary64.ofFloat, number, same]
  rfl

/-- Digits in the interval of a number are read as this number. -/
theorem toBinary64_eq (negative : Bool) {bits : UInt64} (some : bits ≠ 0)
    (finite : bits < Binary64.infinityBits) {n k : Nat} (digits : n ≠ 0)
    (nearest : Binary64.Nearest (Dyadic.ofBits bits).mantissa (Dyadic.ofBits bits).exponent
      (n / 10 ^ k)) :
    (Numeral.finite negative n (-(k : Int))).toBinary64 =
      if negative then -(⟨bits⟩ : Binary64) else ⟨bits⟩ := by
  have stored := Dyadic.stored_ofBits some finite
  obtain ⟨least, greatest⟩ := stored.bounds nearest
  obtain ⟨small, large, reach⟩ := size_bounds least greatest
  have magnitude :
      (if n = 0 || ((toString n).length : Int) + -(k : Int) < -Numeral.exponentLimit then 0
      else if ((toString n).length : Int) + -(k : Int) > Numeral.exponentLimit then .infinity
      else if 0 ≤ -(k : Int) then
        OfScientific.ofScientific (n * Nat.pow 10 (-(k : Int)).toNat) false 0
      else OfScientific.ofScientific n true (-(-(k : Int))).toNat : Binary64) = ⟨bits⟩ := by
    rw [Numeral.exponentLimit, if_neg, if_neg (by omega)]
    · by_cases whole : k = 0
      · rw [whole, Nat.cast_zero, Int.neg_zero, if_pos (Int.le_refl 0), Int.toNat_zero]
        rw [whole, pow_zero, div_one] at nearest
        have same : n * Nat.pow 10 0 = n := Nat.mul_one n
        rw [same]
        exact ofFloat_eq some finite
          (Binary64.toModel_ofScientific_whole (Nat.pos_of_ne_zero digits) stored.canonical nearest)
      · rw [if_neg (by omega), Int.neg_neg, Int.toNat_natCast]
        exact ofFloat_eq some finite (Binary64.toModel_ofScientific (Nat.pos_of_ne_zero digits)
          (Nat.pos_of_ne_zero whole) reach stored.canonical nearest)
    · simp only [Bool.or_eq_true, decide_eq_true_eq, not_or]
      omega
  rw [Numeral.toBinary64]
  simp only [magnitude]

/-! ### The text of a number -/

theorem magnitude_lt {x : Binary64} (number : x.isNaN = false) (finite : x.isInfinite = false) :
    x.magnitude < Binary64.infinityBits := by
  rw [Binary64.isNaN, decide_eq_false_iff_not, UInt64.lt_iff_toNat_lt] at number
  rw [Binary64.isInfinite, beq_eq_false_iff_ne, ne_eq, ← UInt64.toNat_inj] at finite
  rw [UInt64.lt_iff_toNat_lt]
  omega

/-- What is written of the magnitude of a number that is not zero: digits that lie in its
interval. -/
theorem exists_digits {bits : UInt64} (some : bits ≠ 0) (finite : bits < Binary64.infinityBits) :
    ∃ whole fraction, (Dyadic.ofBits bits).shortest.positional.toList = pointed whole fraction ∧
      whole ≠ [] ∧ AllDigits whole ∧ AllDigits fraction ∧
      Nat.ofDigitChars 10 (whole ++ fraction) 0 ≠ 0 ∧
      Binary64.Nearest (Dyadic.ofBits bits).mantissa (Dyadic.ofBits bits).exponent
        (Nat.ofDigitChars 10 (whole ++ fraction) 0 / 10 ^ fraction.length) := by
  have stored := Dyadic.stored_ofBits some finite
  have nearest := stored.nearest (Dyadic.shortest_readsBack stored.canonical.positive)
  have positive : (0 : ℚ) < (Dyadic.ofBits bits).shortest.value :=
    lt_of_lt_of_le (by positivity) (stored.bounds nearest).1
  have digits : (Dyadic.ofBits bits).shortest.digits ≠ 0 := by
    intro none
    rw [Digits.value, none, Nat.cast_zero, zero_mul] at positive
    exact lt_irrefl 0 positive
  obtain ⟨whole, fraction, written, nonempty, all, all', value⟩ := Digits.positional_eq digits
  rw [← value] at nearest positive
  refine ⟨whole, fraction, written, nonempty, all, all', ?_, nearest⟩
  intro none
  rw [none, Nat.cast_zero, zero_div] at positive
  exact lt_irrefl 0 positive

/-- What is written of a number: its sign, and then a word for infinity or digits that are read as
the number. -/
theorem text_eq {x : Binary64} (number : x.isNaN = false) :
    x.magnitude = Binary64.infinityBits ∧
        (text x).toList = (if x.isNegative then ['-'] else []) ++ "inf".toList ∨
      ∃ whole fraction, whole ≠ [] ∧ AllDigits whole ∧ AllDigits fraction ∧
        (text x).toList = (if x.isNegative then ['-'] else []) ++ pointed whole fraction ∧
        (Numeral.finite x.isNegative (Nat.ofDigitChars 10 (whole ++ fraction) 0)
          (-(fraction.length : Int))).toBinary64 = x := by
  have signed (rest : String) : (((if x.isNegative then "-" else "") ++ rest).toList) =
      (if x.isNegative then ['-'] else []) ++ rest.toList := by
    rw [String.toList_append]
    cases x.isNegative <;> rfl
  rw [text, number, if_neg Bool.false_ne_true, signed]
  by_cases zero : x.isZero = true
  · right
    refine ⟨['0'], [], List.cons_ne_nil _ _, ?_, fun c at_c => absurd at_c List.not_mem_nil, ?_, ?_⟩
    · intro c at_c
      rw [List.mem_singleton.mp at_c]
      rfl
    · rw [if_pos zero]
      rfl
    · exact Binary64.eq_of_magnitude (beq_iff_eq.mp zero)
  · have nonzero : x.magnitude ≠ 0 := fun same => zero (beq_iff_eq.mpr same)
    rw [if_neg zero]
    by_cases infinite : x.isInfinite = true
    · left
      rw [if_pos infinite]
      exact ⟨beq_iff_eq.mp infinite, rfl⟩
    · right
      have finite := magnitude_lt number (Bool.eq_false_iff.mpr infinite)
      obtain ⟨whole, fraction, written, some, all, all', digits, nearest⟩ :=
        exists_digits nonzero finite
      refine ⟨whole, fraction, some, all, all', by rw [if_neg infinite, written], ?_⟩
      rw [toBinary64_eq x.isNegative nonzero finite digits nearest, Binary64.signed_magnitude]

/-- The text of a number is read as the number. -/
theorem ofString?_text {x : Binary64} (number : x.isNaN = false) :
    (Numeral.ofString? (text x)).map Numeral.toBinary64 = some x := by
  rw [Numeral.ofString?]
  cases text_eq number with
  | inl infinite =>
      have word : Numeral.ofList? ((if x.isNegative then ['-'] else []) ++ "inf".toList) =
          some (.infinite x.isNegative) := by
        cases x.isNegative <;> decide
      rw [infinite.2, word]
      exact congrArg some (Binary64.eq_of_magnitude infinite.1)
  | inr finite =>
      obtain ⟨whole, fraction, some, all, all', written, value⟩ := finite
      rw [written, Numeral.ofList?_pointed x.isNegative some all all', Option.map_some, value]

/-- The text of a number is a word without blanks. -/
theorem text_solid {x : Binary64} (number : x.isNaN = false) :
    Text.Solid (text x).toList := by
  have digit {c : Char} (digit : c.isDigit = true) : Text.isBlank c = false := by
    rw [Char.isDigit, Bool.and_eq_true, decide_eq_true_eq, decide_eq_true_eq] at digit
    have least : (48 : Nat) ≤ c.toNat := UInt32.le_iff_toNat_le.mp digit.1
    have greatest : c.toNat ≤ 57 := UInt32.le_iff_toNat_le.mp digit.2
    simp [Text.isBlank, Text.blankRanges]
    omega
  have sign : ∀ c ∈ (if x.isNegative then ['-'] else []), Text.isBlank c = false := by
    cases x.isNegative with
    | true => exact fun c at_c => by rw [List.mem_singleton.mp at_c]; rfl
    | false => exact fun c at_c => absurd at_c List.not_mem_nil
  have body : ∃ body, (text x).toList = (if x.isNegative then ['-'] else []) ++ body ∧ body ≠ [] ∧
      ∀ c ∈ body, Text.isBlank c = false := by
    cases text_eq number with
    | inl infinite =>
        have solid : ("inf".toList.all fun c => ! Text.isBlank c) = true := by rfl
        refine ⟨"inf".toList, infinite.2, by decide, fun c at_c => ?_⟩
        exact Bool.not_inj (List.all_eq_true.mp solid c at_c)
    | inr finite =>
        obtain ⟨whole, fraction, some, all, all', written, -⟩ := finite
        refine ⟨pointed whole fraction, written, ?_, ?_⟩
        · rw [pointed]
          split
          · exact some
          · exact List.append_ne_nil_of_left_ne_nil some _
        · rw [pointed]
          split
          · exact fun c at_c => digit (all c at_c)
          · intro c at_c
            simp only [List.mem_append, List.mem_cons] at at_c
            cases at_c with
            | inl at_whole => exact digit (all c at_whole)
            | inr rest =>
                cases rest with
                | inl point => rw [point]; rfl
                | inr at_fraction => exact digit (all' c at_fraction)
  obtain ⟨body, written, some, solid⟩ := body
  rw [written]
  refine ⟨List.append_ne_nil_of_right_ne_nil _ some, fun c at_c => ?_⟩
  exact (List.mem_append.mp at_c).elim (sign c) (solid c)

end Decimal
end HardwareLinker
