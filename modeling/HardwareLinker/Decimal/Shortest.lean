import HardwareLinker.Binary64

/-!
The decimal text of a binary64 value: the fewest digits that read back to the value, written
positionally whatever the magnitude. Digits are selected by exact integer arithmetic on the bits.
-/

namespace HardwareLinker.Decimal

/-- A positive value `mantissa * 2 ^ exponent`. -/
structure Dyadic where
  mantissa : Nat
  exponent : Int
  /-- The neighbour below is half as far away as the neighbour above. -/
  narrowBelow : Bool

/-- The leading bit of a mantissa that is not stored. -/
def leadingBit : Nat := 0x10000000000000

/-- The value of the bits of a finite number, its sign left out. -/
def Dyadic.ofBits (bits : UInt64) : Dyadic :=
  let field := ((bits >>> 52) &&& 0x7FF).toNat
  let fraction := (bits &&& 0xFFFFFFFFFFFFF).toNat
  if field = 0 then ⟨fraction, -1074, false⟩
  else ⟨leadingBit + fraction, (field : Int) - 1075, fraction == 0 && field > 1⟩

/-- A value `digits * 10 ^ exponent`. -/
structure Digits where
  digits : Nat
  exponent : Int
deriving DecidableEq, Repr

/-- The numerator of a power, whose exponent may be negative. -/
def numeratorOf (base : Nat) (exponent : Int) : Nat := Nat.pow base exponent.toNat

/-- The denominator of a power, whose exponent may be negative. -/
def denominatorOf (base : Nat) (exponent : Int) : Nat := numeratorOf base (-exponent)

/-- Compares `a * 10 ^ i` with `m * 2 ^ j`. -/
def compareScaled (a : Nat) (i : Int) (m : Nat) (j : Int) : Ordering :=
  compare (a * numeratorOf 10 i * denominatorOf 2 j) (m * numeratorOf 2 j * denominatorOf 10 i)

namespace Dyadic

/-- The decimal lies among the reals that round to the value; the ends of that interval belong to
it when the mantissa is even. -/
def readsBack (x : Dyadic) (d : Digits) : Bool :=
  let below := 4 * x.mantissa - (if x.narrowBelow then 1 else 2)
  let above := 4 * x.mantissa + 2
  let closed := x.mantissa % 2 == 0
  let low := compareScaled d.digits d.exponent below (x.exponent - 2)
  let high := compareScaled d.digits d.exponent above (x.exponent - 2)
  (low == .gt || (closed && low == .eq)) && (high == .lt || (closed && high == .eq))

/-- The greatest integer `n` with `n * 10 ^ place` at most the value. -/
def floorAt (x : Dyadic) (place : Int) : Nat :=
  (x.mantissa * numeratorOf 2 x.exponent * denominatorOf 10 place)
    / (denominatorOf 2 x.exponent * numeratorOf 10 place)

/-- Twice the value is at least `(2 n + 1) * 10 ^ place`, so `n + 1` is no farther than `n`. -/
def upperNoFarther (x : Dyadic) (n : Nat) (place : Int) : Bool :=
  compareScaled (2 * n + 1) place x.mantissa (x.exponent + 1) != .gt

/-- A power of ten above the value, at most two steps too high. -/
def scaleGuess (x : Dyadic) : Int :=
  let binary := (x.mantissa.log2 : Int) + 1 + x.exponent
  (binary * 30103).fdiv 100000 + 2

/-- The least power of ten above the value, searched downwards from a guess. -/
def scaleBelow (x : Dyadic) : Nat → Int → Int
  | 0, k => k
  | n + 1, k =>
    if compareScaled 1 (k - 1) x.mantissa x.exponent == .gt then scaleBelow x n (k - 1) else k

/-- The decimal on the grid of one place that reads back, the nearer one when two do; an exact
tie goes up. -/
def onGrid (x : Dyadic) (place : Int) : Option Digits :=
  let n := x.floorAt place
  let lower : Digits := ⟨n, place⟩
  let upper : Digits := ⟨n + 1, place⟩
  match x.readsBack lower, x.readsBack upper with
  | true, true => some (if x.upperNoFarther n place then upper else lower)
  | true, false => some lower
  | false, true => some upper
  | false, false => none

/-- The value itself as a decimal: every dyadic fraction is a finite decimal. -/
def exactly (x : Dyadic) : Digits :=
  if 0 ≤ x.exponent then ⟨x.mantissa * numeratorOf 2 x.exponent, 0⟩
  else ⟨x.mantissa * denominatorOf 5 x.exponent, x.exponent⟩

/-- The fewest digits that read back; seventeen always suffice. -/
def shortest (x : Dyadic) : Digits :=
  let scale := scaleBelow x 5 x.scaleGuess
  ((List.range 17).findSome? fun n => x.onGrid (scale - (n + 1 : Nat))).getD x.exactly

end Dyadic

/-- Positional text: no exponent, no trailing point. -/
def Digits.positional (d : Digits) : String :=
  let text := toString d.digits
  if d.digits = 0 then "0"
  else if 0 ≤ d.exponent then text ++ String.ofList (List.replicate d.exponent.toNat '0')
  else
    let places := (-d.exponent).toNat
    let digits := text.toList
    let padded := List.replicate (places + 1 - digits.length) '0' ++ digits
    let whole := padded.take (padded.length - places)
    let fraction := (padded.drop (padded.length - places)).reverse.dropWhile (· == '0')
    String.ofList (if fraction.isEmpty then whole else whole ++ '.' :: fraction.reverse)

/-- The text of a number in every message and report. -/
def text (x : Binary64) : String :=
  if x.isNaN then "NaN"
  else
    (if x.isNegative then "-" else "") ++
      if x.isZero then "0"
      else if x.isInfinite then "inf"
      else (Dyadic.ofBits x.magnitude).shortest.positional

/-- The nearest multiple of `10 ^ -places`, a half going to the even neighbour, always with that
many places. -/
def fixed (places : Nat) (x : Binary64) : String :=
  if x.isNaN then "NaN"
  else
    (if x.isNegative then "-" else "") ++
      if x.isInfinite then "inf"
      else
        let d := Dyadic.ofBits x.magnitude
        let num := d.mantissa * numeratorOf 2 d.exponent * numeratorOf 10 places
        let den := denominatorOf 2 d.exponent
        let low := num / den
        let rest := 2 * (num % den)
        let n := if rest > den || (rest == den && low % 2 == 1) then low + 1 else low
        let digits := (toString n).toList
        let padded := List.replicate (places + 1 - digits.length) '0' ++ digits
        let whole := padded.take (padded.length - places)
        String.ofList
          (if places = 0 then whole else whole ++ '.' :: padded.drop (padded.length - places))

end HardwareLinker.Decimal
