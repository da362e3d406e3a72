/-! Binary floating-point numbers of 64 bits, held as their bits. A finite one is a whole multiple
of the least positive one, so rounding, comparing and writing them are exact arithmetic on natural
numbers. -/
namespace GraphRules

structure Binary64 where
  bits : UInt64
  deriving DecidableEq, Hashable, Inhabited

namespace Binary64

/-- Half a unit goes to the even neighbour. -/
def roundDiv (n d : Nat) : Nat :=
  let q := n / d
  let r := n % d
  if 2 * r < d then q else if d < 2 * r then q + 1 else q + q % 2

/-- The pattern of infinity without its sign; larger patterns stand for no number. -/
def infiniteBits : Nat := 2047 <<< 52

def withSign (negative : Bool) (pattern : Nat) : Binary64 :=
  ⟨UInt64.ofNat (if negative then 1 <<< 63 + pattern else pattern)⟩

def zero (negative : Bool) : Binary64 := withSign negative 0

def infinity (negative : Bool) : Binary64 := withSign negative infiniteBits

def nan (negative : Bool) : Binary64 := withSign negative (infiniteBits + 1 <<< 51)

def isNegative (x : Binary64) : Bool := decide (1 <<< 63 ≤ x.bits.toNat)

/-- The bits below the sign. They grow with the magnitude. -/
def pattern (x : Binary64) : Nat := x.bits.toNat % (1 <<< 63)

def isNaN (x : Binary64) : Bool := decide (infiniteBits < x.pattern)

def isInfinite (x : Binary64) : Bool := decide (x.pattern = infiniteBits)

def isFinite (x : Binary64) : Bool := decide (x.pattern < infiniteBits)

/-- The magnitude of a finite number is `significand * 2 ^ shift` times the least positive number.
-/
def shift (x : Binary64) : Nat := x.pattern >>> 52 - 1

def significand (x : Binary64) : Nat := x.pattern - x.shift <<< 52

/-- The least positive number is `2 ^ (-1074)`. -/
def unitExponent : Nat := 1074

def scaled (x : Binary64) : Nat := x.significand <<< x.shift

def ofRatio (negative : Bool) (num den : Nat) : Binary64 :=
  let n := num <<< unitExponent
  let s := n / den
  let k := if s < 1 <<< 53 then 0 else s.log2 - 52
  withSign negative (min infiniteBits (k <<< 52 + roundDiv n (den <<< k)))

def ofInt (n : Int) : Binary64 := ofRatio (decide (n < 0)) n.natAbs 1

def digitCount (n : Nat) : Nat := if n = 0 then 0 else (Nat.toDigits 10 n).length

/-- The number nearest to `digits * 10 ^ exponent`. Powers far beyond the range of these numbers are
not formed. -/
def ofDecimal (negative : Bool) (digits : Nat) (exponent : Int) : Binary64 :=
  let top : Int := digitCount digits + exponent
  if digits = 0 ∨ top < -400 then zero negative
  else if 400 < top then infinity negative
  else if 0 ≤ exponent then ofRatio negative (digits * Nat.pow 10 exponent.toNat) 1
  else ofRatio negative digits (Nat.pow 10 (-exponent).toNat)

def mul (x y : Binary64) : Binary64 :=
  ofRatio (x.isNegative != y.isNegative) (x.scaled * y.scaled) (1 <<< (2 * unitExponent))

def div (x y : Binary64) : Binary64 :=
  ofRatio (x.isNegative != y.isNegative) x.scaled y.scaled

/-- A whole number in the same order as the numbers that are not NaN; the two zeros share it. -/
def rank (x : Binary64) : Int :=
  if x.isNegative then -(x.pattern : Int) else x.pattern

def compare? (x y : Binary64) : Option Ordering :=
  if x.isNaN || y.isNaN then none else some (compare x.rank y.rank)

/-- Equality of numbers: the two zeros are equal, and NaN differs from all numbers and from itself.
-/
def sameValue (x y : Binary64) : Bool :=
  !x.isNaN && (decide (x = y) || decide (x.pattern = 0 ∧ y.pattern = 0))

end Binary64

end GraphRules
