import HardwareLinker.Decimal.Shortest
import HardwareLinker.Decimal.Numeral

/-!
The arithmetic that weights, areas and coordinates are computed in. The program runs over binary64
numbers; the same definitions over the rationals are the exact reading of every formula.
-/

namespace HardwareLinker

class Scalar (α : Type) extends Zero α, One α, Add α, Sub α, Mul α, Div α, Neg α, LT α, LE α,
    OfScientific α where
  decidableLT : DecidableLT α
  decidableLE : DecidableLE α
  /-- A total order; over binary64 it separates the two zeros and puts what is no number beyond all
  that has its sign. -/
  compareTotal : α → α → Ordering
  abs : α → α
  sqrt : α → α
  exp : α → α
  /-- The least integer that is not below. -/
  ceil : α → α
  /-- The nearest integer; a half goes away from zero. -/
  round : α → α
  /-- The greater operand; one that is no number is ignored. -/
  greater : α → α → α
  /-- The smaller operand; one that is no number is ignored. -/
  smaller : α → α → α
  isFinite : α → Bool
  ofNat : Nat → α
  /-- Cut to an integer; what is out of range goes to the nearest end, no number to zero. -/
  toNat : α → Nat
  ofNumeral? : Numeral → Option α
  text : α → String

namespace Scalar

instance {α : Type} [Scalar α] : DecidableLT α := decidableLT

instance {α : Type} [Scalar α] : DecidableLE α := decidableLE

instance : Scalar Binary64 where
  decidableLT := inferInstance
  decidableLE := inferInstance
  compareTotal a b := compare a.rank b.rank
  abs := Binary64.abs
  sqrt := Binary64.apply Float.sqrt
  exp := Binary64.apply Float.exp
  ceil := Binary64.apply Float.ceil
  round := Binary64.apply Float.round
  greater a b := if a.isNaN then b else if b.isNaN then a else if a < b then b else a
  smaller a b := if a.isNaN then b else if b.isNaN then a else if b < a then b else a
  isFinite := Binary64.isFinite
  ofNat := Binary64.ofNat
  toNat := Binary64.toNat
  ofNumeral? n := some n.toBinary64
  text := Decimal.text

/-- The least natural number whose square is at least `n`. -/
def natSqrtUp (n : Nat) : Nat := ((List.range (n + 1)).find? fun r => n ≤ r * r).getD n

/-- Nearest integer of a rational, a half away from zero. -/
def roundRat (x : Rat) : Rat :=
  if 0 ≤ x then ((x + 1 / 2).floor : Rat) else ((x - 1 / 2).ceil : Rat)

instance : Scalar Rat where
  zero := 0
  one := 1
  decidableLT := inferInstance
  decidableLE := inferInstance
  compareTotal a b := if a < b then .lt else if b < a then .gt else .eq
  abs := Rat.abs
  sqrt x := if x ≤ 0 then 0 else mkRat (natSqrtUp (x.num.toNat * x.den)) x.den
  exp x := 1 + x
  ceil x := (x.ceil : Rat)
  round := roundRat
  greater a b := if a < b then b else a
  smaller a b := if b < a then b else a
  isFinite _ := true
  ofNat n := (n : Rat)
  toNat x := x.floor.toNat
  ofNumeral? := Numeral.toRat?
  text x := toString x

variable {α : Type} [Scalar α]

/-- Sums start from negative zero, the neutral element of binary64 addition. -/
def sum (xs : List α) : α := xs.foldl (· + ·) (-0)

def square (x : α) : α := x * x

/-- A whole number that came as a literal. -/
def two : α := 2.0

end Scalar
end HardwareLinker
