import Signet.Error
import Signet.Magnitude.Division
/-!
Integers of any size: a sign beside a magnitude. The magnitude is in normal form and zero has no
sign, so that two integers are equal exactly when they hold the same data.
-/
namespace Signet

open scoped Powers

/-- An integer of any size. -/
structure Integer where
  -- whether the integer is below zero
  negative : Bool
  -- the absolute value
  magnitude : Magnitude
  normal : magnitude.Normal
  zero_unsigned : magnitude = .zero → negative = false
deriving DecidableEq

namespace Integer

/-- The integer with the given sign and words; zero drops the sign. -/
def ofMagnitude (negative : Bool) (m : Magnitude) : Integer :=
  let words := m.trim
  { negative := negative && words != .zero
    magnitude := words
    normal := m.normal_trim
    zero_unsigned := by intro h; simp [words, h] }

/-- The number that the integer stands for. -/
def toInt (x : Integer) : Int :=
  if x.negative then -(x.magnitude.toNat : Int) else x.magnitude.toNat

def ofUInt64 (w : UInt64) : Integer := ofMagnitude false (.ofWord w)

def ofInt64 (n : Int64) : Integer :=
  ofMagnitude (n < 0) (.ofWord (UInt64.ofNat n.toInt.natAbs))

def zero : Integer := ofUInt64 0

def one : Integer := ofUInt64 1

instance : Inhabited Integer := ⟨zero⟩

instance : OfNat Integer 0 := ⟨zero⟩

instance : OfNat Integer 1 := ⟨one⟩

/-- Numbers are not grown on purpose to this many binary digits or more. -/
def maxBits : Nat := 2 ^ 31 - 64

def bits (x : Integer) : Nat := x.magnitude.bits

def isZero (x : Integer) : Bool := x == 0

def isOne (x : Integer) : Bool := x == 1

def isNegative (x : Integer) : Bool := x.negative

def isOdd (x : Integer) : Bool := x.magnitude.isOdd

/-- Zero counts as even. -/
def isEven (x : Integer) : Bool := !x.isOdd

/-- The signed order. -/
def compare (a b : Integer) : Ordering :=
  match a.negative, b.negative with
  | false, true => .gt
  | true, false => .lt
  | false, false => a.magnitude.compare b.magnitude
  | true, true => b.magnitude.compare a.magnitude

instance : LT Integer := ⟨fun a b => a.compare b = .lt⟩

instance : LE Integer := ⟨fun a b => a.compare b ≠ .gt⟩

instance (a b : Integer) : Decidable (a < b) := inferInstanceAs (Decidable (_ = _))

instance (a b : Integer) : Decidable (a ≤ b) := inferInstanceAs (Decidable (_ ≠ _))

def testBit (x : Integer) (place : Nat) : Bool := x.magnitude.testBit place

/-- Sets or clears one binary digit of the absolute value and keeps the sign. -/
def setBit (x : Integer) (place : Nat) (value : Bool) : Except Error Integer :=
  if place ≥ maxBits then .error .tooLarge
  else if value then .ok (ofMagnitude x.negative (x.magnitude.setBit place))
  else .ok (ofMagnitude x.negative (x.magnitude.clearBit place))

def shiftLeft (x : Integer) (count : Nat) : Integer :=
  ofMagnitude x.negative (x.magnitude.shiftLeft count)

def halve (x : Integer) : Integer := ofMagnitude x.negative x.magnitude.halve

/-- The low 31 binary digits of the absolute value under the sign. -/
def toInt32 (x : Integer) : Int32 :=
  let low := (x.magnitude.lowWord &&& 0x7FFFFFFF).toUInt32.toInt32
  if x.negative then -low else low

/-- The value as a machine integer, refused when 31 binary digits do not hold it. -/
def toInt32? (x : Integer) : Except Error Int32 :=
  if x.bits > 31 then .error .truncated else .ok x.toInt32

end Integer
end Signet
