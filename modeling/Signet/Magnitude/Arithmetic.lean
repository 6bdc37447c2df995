import Signet.Magnitude.Basic
/-!
Sums, differences and products of magnitudes, word by word with a carry.
-/
namespace Signet.Magnitude

open scoped Powers

def addWord : Magnitude → UInt64 → Magnitude
  | zero, w => ofWord w
  | word low high, w =>
    let sum := low + w
    push sum (addWord high (decide (sum < low)).toUInt64)

def addCarry : Magnitude → Magnitude → Bool → Magnitude
  | zero, b, carry => addWord b carry.toUInt64
  | word x xs, b, carry =>
    let sum := x + b.lowWord
    let total := sum + carry.toUInt64
    push total (addCarry xs b.rest (decide (sum < x) || decide (total < sum)))

def add (a b : Magnitude) : Magnitude := addCarry a b false

/-- The difference with a borrow from the lowest word; what would borrow beyond the top is lost. -/
def subBorrow : Magnitude → Magnitude → Bool → Magnitude
  | zero, _, _ => zero
  | word x xs, b, borrow =>
    let difference := x - b.lowWord
    let total := difference - borrow.toUInt64
    push total
      (subBorrow xs b.rest (decide (x < b.lowWord) || decide (difference < borrow.toUInt64)))

def sub (a b : Magnitude) : Magnitude := subBorrow a b false

/-- One product of two words with an addend and a carry. Two words hold it:
`(2 ^ 64 - 1) ^ 2 + 2 * (2 ^ 64 - 1) = 2 ^ 128 - 1`. -/
def wordProduct (x y addend carry : UInt64) : Nat :=
  x.toNat * y.toNat + addend.toNat + carry.toNat

/-- The row `x * b + addend + carry` of a written multiplication. -/
def mulAdd (x : UInt64) : Magnitude → Magnitude → UInt64 → Magnitude
  | zero, addend, carry => addWord addend carry
  | word y ys, addend, carry =>
    let product := wordProduct x y addend.lowWord carry
    push (UInt64.ofNat product)
      (mulAdd x ys addend.rest (UInt64.ofNat (product >>> 64)))

/-- The sum of `addend` and the product of two magnitudes: each word of the first adds a row,
whose lowest word is then final. -/
def mulRows : Magnitude → Magnitude → Magnitude → Magnitude
  | zero, _, addend => addend
  | word x xs, b, addend =>
    -- later rows stand one word higher and leave the lowest word alone
    let row := mulAdd x b addend 0
    push row.lowWord (mulRows xs b row.rest)

def mul (a b : Magnitude) : Magnitude := mulRows a b zero

def mulAddWord (m : Magnitude) (factor addend : UInt64) : Magnitude :=
  mulAdd factor m zero addend

/-- Moves the number up by whole words; zero stays where it is. -/
def shiftWords : Nat → Magnitude → Magnitude
  | 0, m => m
  | _ + 1, zero => zero
  | count + 1, word low high => push 0 (shiftWords count (word low high))

def shiftLeft (m : Magnitude) (count : Nat) : Magnitude :=
  shiftWords (count / 64) (m.mulAddWord (UInt64.ofNat (2 ^ (count % 64))) 0)

def halve : Magnitude → Magnitude
  | zero => zero
  | word low high => push ((low >>> 1) ||| (high.lowWord <<< 63)) (halve high)

def setBit : Magnitude → Nat → Magnitude
  | zero, place => shiftWords (place / 64) (ofWord (1 <<< UInt64.ofNat (place % 64)))
  | word low high, place =>
    if place < 64 then push (low ||| (1 <<< UInt64.ofNat place)) high
    else push low (setBit high (place - 64))

def clearBit : Magnitude → Nat → Magnitude
  | zero, _ => zero
  | word low high, place =>
    if place < 64 then push (low &&& ~~~(1 <<< UInt64.ofNat place)) high
    else push low (clearBit high (place - 64))

/-- A word product with its addends never leaves two words. -/
theorem wordProduct_lt (x y addend carry : UInt64) : wordProduct x y addend carry < 2 ^ 128 := by
  have hx := x.toNat_lt
  have hy := y.toNat_lt
  have ha := addend.toNat_lt
  have hc := carry.toNat_lt
  have hxy : x.toNat * y.toNat ≤ (2 ^ 64 - 1) * (2 ^ 64 - 1) :=
    Nat.mul_le_mul (by omega) (by omega)
  unfold wordProduct
  omega

end Signet.Magnitude
