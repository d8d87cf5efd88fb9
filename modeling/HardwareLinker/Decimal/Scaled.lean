import HardwareLinker.Binary64
import HardwareLinker.Decimal.Written

/-!
The reading of numbers in resource tables: the leading digits that fit a word are rounded, then
scaled by powers of ten. Past fifteen digits this may miss the nearest value by a little.
-/

namespace HardwareLinker.Decimal.Written

/-- Appends digits to a word for as long as it stays below `2 ^ 64`; what is left starts with the
first digit that does not fit. -/
def appendDigits : Nat → List Char → Nat × List Char
  | n, [] => (n, [])
  | n, c :: rest =>
    let longer := 10 * n + Numeral.digitValue c
    if longer < UInt64.size then appendDigits longer rest else (n, c :: rest)

/-- A word and the power of ten that goes with it. Whole digits that do not fit count as zeros, and
the digits of the fraction are appended behind those that do. -/
def leading (d : Written) : Nat × Int :=
  let (word, dropped) := appendDigits 0 d.whole
  let (word, ignored) := appendDigits word d.fraction
  (word, d.exponent + dropped.length - (d.fraction.length - ignored.length))

/-- The greatest power of ten that is finite. -/
def largestPower : Nat := 308

def powerOfTen (n : Nat) : Binary64 := OfScientific.ofScientific 1 false n

/-- Divides by a power of ten, in several steps if it is not finite. -/
def scaleDown (x : Binary64) (n : Nat) : Binary64 :=
  if n ≤ largestPower then x / powerOfTen n
  else if x.isZero then x
  else scaleDown (x / powerOfTen largestPower) (n - largestPower)
termination_by n
decreasing_by simp only [largestPower] at *; omega

/-- A number that is too large has no value. -/
def scaleUp? (x : Binary64) (n : Nat) : Option Binary64 :=
  if n ≤ largestPower then
    let y := x * powerOfTen n
    if y.isInfinite then none else some y
  else if x.isZero then some x
  else none

def scaled? (d : Written) : Option Binary64 :=
  let (word, exponent) := d.leading
  let x := Binary64.ofNat word
  let magnitude := if 0 ≤ exponent then scaleUp? x exponent.toNat
    else some (scaleDown x (-exponent).toNat)
  magnitude.map fun y => if d.negative then -y else y

end HardwareLinker.Decimal.Written
