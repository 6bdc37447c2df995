import Signet.Magnitude.Arithmetic
/-!
Division of magnitudes: long division in binary for a divisor of any size, and word by word for a
divisor that fits in a word. Division by a small base gives the digits of a magnitude in this base,
highest first; with them stands the magnitude that a row of digits stands for.
-/
namespace Signet.Magnitude

open scoped Powers

/-- Long division over the `places` lowest binary places of the quotient. The divisor starts at
the highest of them, is subtracted wherever it fits, and is halved for the next place. -/
def divideDown : Nat → Magnitude → Magnitude → Magnitude → Magnitude × Magnitude
  | 0, remainder, _, quotient => (quotient, remainder)
  | place + 1, remainder, divisor, quotient =>
    if compare remainder divisor = .lt then
      divideDown place remainder divisor.halve quotient
    else
      divideDown place (remainder.sub divisor) divisor.halve (quotient.setBit place)

def divMod (a b : Magnitude) : Magnitude × Magnitude :=
  if compare a b = .lt then (zero, a)
  else
    -- the highest place at which the divisor may fit
    let shift := a.bits - b.bits
    divideDown (shift + 1) a (b.shiftLeft shift) zero

/-- Quotient and remainder by a small divisor `d > 0`, from the highest word down: the remainder
so far stands above the next word. -/
def divModSmall : Magnitude → Nat → Magnitude × Nat
  | zero, _ => (zero, 0)
  | word low high, d =>
    -- `remainder < d`, so that the next quotient takes one word
    let (quotient, remainder) := divModSmall high d
    let current := remainder * 2 ^ 64 + low.toNat
    (push (UInt64.ofNat (current / d)) quotient, current % d)

def modSmall : Magnitude → Nat → Nat
  | zero, _ => 0
  | word low high, d => (modSmall high d * 2 ^ 64 + low.toNat) % d

def ofDigits (base : Nat) (digits : List Nat) : Magnitude :=
  digits.foldl (fun m d => m.mulAddWord (UInt64.ofNat base) (UInt64.ofNat d)) zero

/-- At most `count` digits, lowest first, until nothing is left. -/
def digitsUp (base : Nat) : Nat → Magnitude → List Nat
  | 0, _ => []
  | count + 1, m =>
    if m.isZero then []
    else
      let (quotient, digit) := m.divModSmall base
      digit :: digitsUp base count quotient

/-- The digits in `base`, highest first and without leading zeros. Every digit takes at least one
binary digit off, so `bits` of them are enough. -/
def toDigits (base : Nat) (m : Magnitude) : List Nat :=
  (digitsUp base m.bits m).reverse

end Signet.Magnitude
