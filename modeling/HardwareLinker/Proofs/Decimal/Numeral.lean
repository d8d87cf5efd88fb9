import HardwareLinker.Decimal.Numeral

/-!
Unsigned numerals: which texts are read as a number and which number that is. The plain decimal
form of a number is one of its numerals.
-/

namespace HardwareLinker

/-- `text` denotes `n`: ASCII digits, at least one, behind one plus or none. -/
def Denotes (text : List Char) (n : Nat) : Prop :=
  ∃ digits : List Char, (text = digits ∨ text = '+' :: digits) ∧ digits ≠ [] ∧
    (∀ c ∈ digits, c.isDigit = true) ∧ Nat.ofDigitChars 10 digits 0 = n

namespace Numeral

theorem natOfDigits_eq (digits : List Char) : natOfDigits digits = Nat.ofDigitChars 10 digits 0 :=
  Nat.ofDigitChars_eq_foldl.symm

end Numeral

/-- What follows an optional plus. -/
def withoutPlus : List Char → List Char
  | '+' :: rest => rest
  | text => text

theorem withoutPlus_of_digits {digits : List Char} (h : ∀ c ∈ digits, c.isDigit = true) :
    withoutPlus digits = digits := by
  unfold withoutPlus
  split
  · simp at h
  · rfl

theorem denotes_iff {text : List Char} {n : Nat} :
    Denotes text n ↔ withoutPlus text ≠ [] ∧ (∀ c ∈ withoutPlus text, c.isDigit = true) ∧
      Nat.ofDigitChars 10 (withoutPlus text) 0 = n := by
  constructor
  · rintro ⟨digits, rfl | rfl, nonempty, all, value⟩
    · rw [withoutPlus_of_digits all]
      exact ⟨nonempty, all, value⟩
    · exact ⟨nonempty, all, value⟩
  · intro parts
    refine ⟨withoutPlus text, ?_, parts⟩
    unfold withoutPlus
    split <;> simp

theorem natBelow?_eq_some {limit n : Nat} {s : String} :
    natBelow? limit s = some n ↔ Denotes s.toList n ∧ n ≤ limit := by
  rw [denotes_iff]
  change (if (withoutPlus s.toList).isEmpty || !(withoutPlus s.toList).all Char.isDigit then none
    else if Numeral.natOfDigits (withoutPlus s.toList) ≤ limit then
      some (Numeral.natOfDigits (withoutPlus s.toList)) else none) = some n ↔ _
  rw [Numeral.natOfDigits_eq]
  split
  case isTrue bad =>
    simp only [reduceCtorEq, false_iff, not_and]
    rintro ⟨nonempty, digits, -⟩
    simp [nonempty, List.all_eq_true.mpr digits] at bad
  case isFalse good =>
    simp only [Bool.or_eq_true, List.isEmpty_iff, Bool.not_eq_true', not_or, Bool.not_eq_false,
      List.all_eq_true] at good
    rw [Option.ite_none_right_eq_some, Option.some.injEq]
    constructor
    · rintro ⟨le, rfl⟩
      exact ⟨⟨good.1, good.2, rfl⟩, le⟩
    · rintro ⟨⟨-, -, rfl⟩, le⟩
      exact ⟨le, rfl⟩

theorem toDigits_injective : Function.Injective (Nat.toDigits 10) := by
  intro m n h
  have read := congrArg (Nat.ofDigitChars 10 · 0) h
  simpa only [Nat.ofDigitChars_ten_toDigits] using read

theorem underscore_notMem_toDigits (n : Nat) : '_' ∉ Nat.toDigits 10 n := fun h =>
  absurd (Nat.isDigit_of_mem_toDigits (by decide) (by decide) h) (by decide)

theorem denotes_toString (n : Nat) : Denotes (toString n).toList n := by
  have digits : (toString n).toList = Nat.toDigits 10 n := Nat.toList_repr
  exact ⟨_, .inl digits, Nat.toDigits_ne_nil,
    fun c => Nat.isDigit_of_mem_toDigits (by decide) (by decide), Nat.ofDigitChars_ten_toDigits⟩

end HardwareLinker
