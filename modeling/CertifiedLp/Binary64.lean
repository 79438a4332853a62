import CertifiedLp.Extended.Basic

/-!
# Double precision numbers

A double is its 64 bits: a sign, eleven bits of exponent and 52 bits of fraction. All operations
are on these bits in integer arithmetic, so that their results can be computed in a proof.

The magnitude of a finite double is `m * 2 ^ e`. Its bits without the sign are
`(e + 1074) * 2 ^ 52 + m`, for normal and subnormal numbers alike, so the bits of positive doubles
count upwards in the order of their values: the next double is one more.
-/

namespace CertifiedLp

/-- A double precision number, by its bits. -/
structure Binary64 where
  /-- Sign, exponent and fraction, from the highest bit down. -/
  bits : UInt64
  deriving DecidableEq

namespace Binary64

/-- The number of fraction bits, as a modulus. -/
def fractionModulus : Nat := Nat.pow 2 52

/-- The highest bit, which is set in negative numbers. -/
def signBit : Nat := Nat.pow 2 63

/-- The bits below the sign. -/
def magnitudeBits (x : Binary64) : Nat := x.bits.toNat % signBit

/-- Whether the sign bit is set. -/
def isSigned (x : Binary64) : Bool := signBit ≤ x.bits.toNat

/-- The magnitude bits of the infinities: all exponent bits and no fraction bit. -/
def infinityBits : Nat := 2047 * fractionModulus

/-- A double with a sign and the bits below it. -/
def ofMagnitudeBits (signed : Bool) (bits : Nat) : Binary64 :=
  ⟨UInt64.ofNat (if signed then signBit + bits else bits)⟩

/-- Positive zero. -/
def zero : Binary64 := ⟨0⟩

instance : Inhabited Binary64 := ⟨zero⟩

/-- Positive infinity. -/
def posInf : Binary64 := ofMagnitudeBits false infinityBits

/-- Negative infinity. -/
def negInf : Binary64 := ofMagnitudeBits true infinityBits

/-- The largest finite double. -/
def largest : Binary64 := ofMagnitudeBits false (infinityBits - 1)

/-- The smallest finite double. -/
def smallest : Binary64 := ofMagnitudeBits true (infinityBits - 1)

/-- Not a number: all exponent bits and some fraction bit. -/
def isNaN (x : Binary64) : Bool := infinityBits < x.magnitudeBits

/-- An integer times a power of two. -/
def scaleByTwo (m : Nat) (e : Int) : Rat :=
  if 0 ≤ e then ((m * Nat.pow 2 e.toNat : Nat) : Rat) else mkRat m (Nat.pow 2 (-e).toNat)

/-- The value of the magnitude bits of a finite double. -/
def magnitude (bits : Nat) : Rat :=
  let field := bits / fractionModulus
  let fraction := bits % fractionModulus
  if field = 0 then scaleByTwo fraction (-1074)
  else scaleByTwo (fractionModulus + fraction) ((field : Int) - 1075)

/-- The value of a finite double. -/
def finite? (x : Binary64) : Option Rat :=
  if x.magnitudeBits < infinityBits then
    some (if x.isSigned then -magnitude x.magnitudeBits else magnitude x.magnitudeBits)
  else none

/-- The exact value of a double, if it is a number. -/
def toExtended? (x : Binary64) : Option Extended :=
  match x.finite? with
  | some q => some (.finite q)
  | none =>
    if x.isNaN then none
    else if x.isSigned then some .negInf
    else some .posInf

/-- The double on the other side of zero. -/
def neg (x : Binary64) : Binary64 := ofMagnitudeBits (!x.isSigned) x.magnitudeBits

/-- The next double upwards. There is none above positive infinity, and the two zeros count as
one. -/
def nextUp (x : Binary64) : Binary64 :=
  if x.isNaN || x = posInf then x
  else if x.magnitudeBits = 0 then ofMagnitudeBits false 1
  else if x.isSigned then ofMagnitudeBits true (x.magnitudeBits - 1)
  else ofMagnitudeBits false (x.magnitudeBits + 1)

/-- The next double downwards. -/
def nextDown (x : Binary64) : Binary64 := x.neg.nextUp.neg

end Binary64

end CertifiedLp
