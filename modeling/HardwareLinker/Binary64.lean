/-!
Binary64 numbers by their bits. Where both operands are numbers, arithmetic rounds to nearest. What
stands for no number has bits too, and stored files show them: an operand that is no number is
handed on with its sign, and an operation on numbers that has no result gives one negative pattern.
-/

namespace HardwareLinker

structure Binary64 where
  bits : UInt64
deriving DecidableEq, Repr, Inhabited

namespace Binary64

def signBit : UInt64 := 0x8000000000000000

/-- The bits of positive infinity; greater magnitudes are no numbers. -/
def infinityBits : UInt64 := 0x7FF0000000000000

/-- Set in all that arithmetic hands on as no number. -/
def quietBit : UInt64 := 0x0008000000000000

/-- The bits without the sign. -/
@[inline]
def magnitude (x : Binary64) : UInt64 := x.bits &&& ~~~signBit

def isNegative (x : Binary64) : Bool := x.bits &&& signBit != 0

@[inline]
def isNaN (x : Binary64) : Bool := infinityBits < x.magnitude

def isInfinite (x : Binary64) : Bool := x.magnitude == infinityBits

def isFinite (x : Binary64) : Bool := x.magnitude < infinityBits

def isZero (x : Binary64) : Bool := x.magnitude == 0

def infinity : Binary64 := ⟨infinityBits⟩

/-- What a text that names no number stands for. -/
def notANumber : Binary64 := ⟨infinityBits ||| quietBit⟩

/-- What an operation on numbers gives when it has no result. -/
def noResult : Binary64 := ⟨signBit ||| infinityBits ||| quietBit⟩

def neg (x : Binary64) : Binary64 := ⟨x.bits ^^^ signBit⟩

def abs (x : Binary64) : Binary64 := ⟨x.magnitude⟩

@[inline]
def quieted (x : Binary64) : Binary64 := ⟨x.bits ||| quietBit⟩

@[inline]
def toFloat (x : Binary64) : Float := Float.ofBits x.bits

@[inline]
def ofFloat (x : Float) : Binary64 := if x.isNaN then noResult else ⟨x.toBits⟩

/-- An operation on one number. -/
@[inline]
def apply (f : Float → Float) (x : Binary64) : Binary64 :=
  if x.isNaN then x.quieted else ofFloat (f x.toFloat)

/-- An operation on two numbers; of two operands that are no numbers the first is handed on. -/
@[inline]
def combine (f : Float → Float → Float) (x y : Binary64) : Binary64 :=
  if x.isNaN then x.quieted
  else if y.isNaN then y.quieted
  else ofFloat (f x.toFloat y.toFloat)

def ofNat (n : Nat) : Binary64 := ofFloat (Float.ofNat n)

/-- Cut to an integer below `2 ^ 64`; what is out of range goes to the nearest end, no number to
zero. -/
def toNat (x : Binary64) : Nat := x.toFloat.toUInt64.toNat

/-- The position in a total order that separates the two zeros and goes by the sign also where there
is no number. -/
def rank (x : Binary64) : UInt64 := if x.isNegative then ~~~x.bits else x.bits ||| signBit

instance : Zero Binary64 := ⟨⟨0⟩⟩

instance : One Binary64 := ⟨⟨0x3FF0000000000000⟩⟩

instance : OfScientific Binary64 :=
  ⟨fun m negative e => ofFloat (OfScientific.ofScientific m negative e)⟩

instance : Add Binary64 := ⟨combine (· + ·)⟩

instance : Sub Binary64 := ⟨combine (· - ·)⟩

instance : Mul Binary64 := ⟨combine (· * ·)⟩

instance : Div Binary64 := ⟨combine (· / ·)⟩

instance : Neg Binary64 := ⟨neg⟩

instance : LT Binary64 := ⟨fun x y => x.toFloat < y.toFloat⟩

instance : LE Binary64 := ⟨fun x y => x.toFloat ≤ y.toFloat⟩

instance : DecidableLT Binary64 := fun x y => inferInstanceAs (Decidable (x.toFloat < y.toFloat))

instance : DecidableLE Binary64 := fun x y => inferInstanceAs (Decidable (x.toFloat ≤ y.toFloat))

end Binary64
end HardwareLinker
