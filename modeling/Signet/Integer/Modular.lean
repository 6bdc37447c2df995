import Signet.Integer.Arithmetic
/-!
Powers and inverses to a modulus, and the greatest common divisor.
-/
namespace Signet.Integer

/-- Square and multiply over the binary digits of the exponent, lowest first: `power` holds the
base raised to the weight of the next digit. -/
def powerUp (modulus : Integer) : List Bool → Integer → Integer → Integer
  | [], result, _ => result
  -- the highest digit needs no further square
  | [digit], result, power => if digit then result * power % modulus else result
  | digit :: rest, result, power =>
    let result := if digit then result * power % modulus else result
    powerUp modulus rest result (power * power % modulus)

/-- The power `base ^ |exponent|` as a floor remainder by the modulus. A zero base or a modulus of
zero or one gives zero; else a zero exponent gives one. -/
def modPow (base exponent modulus : Integer) : Integer :=
  if base.isZero || modulus.isZero || modulus.isOne then 0
  else if exponent.isZero then 1
  else powerUp modulus exponent.magnitude.toBits 1 (base % modulus)

/-- How many divisions Euclid's algorithm can take: two of them at least halve the divisor. -/
def euclidSteps (modulus : Integer) : Nat := 2 * modulus.bits + 2

/-- Euclid's algorithm with the coefficient of the number to invert: before each division
`little` is `t` times that number, and `big` is `s` times it, both to the modulus. -/
def invertDown (modulus : Integer) : Nat → Integer → Integer → Integer → Integer →
    Except Error Integer
  | 0, _, _, _, _ => .error .notInvertible
  | steps + 1, big, little, s, t =>
    let (quotient, remainder) := divMod big little
    if remainder.isZero then
      -- `little` is the greatest common divisor
      if little.isOne then .ok t else .error .notInvertible
    else invertDown modulus steps little remainder t ((s - quotient * t) % modulus)

def modInverse (x modulus : Integer) : Except Error Integer :=
  if x.isZero || x.isNegative || modulus.isNegative || modulus ≤ x then .error .invalidParameter
  else invertDown modulus modulus.euclidSteps modulus x 0 1

/-- Euclid's algorithm on `larger ≥ smaller ≥ 0`. -/
def gcdDown : Nat → Integer → Integer → Integer
  | 0, larger, _ => larger
  | steps + 1, larger, smaller =>
    if smaller.isZero then larger else gcdDown steps smaller (larger % smaller)

def gcd (a b : Integer) : Except Error Integer :=
  if a.isZero || b.isZero then .error .invalidParameter
  else
    let a := a.abs
    let b := b.abs
    if b ≤ a then .ok (gcdDown a.euclidSteps a b) else .ok (gcdDown b.euclidSteps b a)

end Signet.Integer
