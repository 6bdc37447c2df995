import Signet.Powers
/-!
Magnitudes: natural numbers of any size, held as 64-bit words with the lowest word first.
The view `toNat` gives the number, and `Normal` says that the highest word is not zero, so that
each number has one normal form.
-/
namespace Signet

open scoped Powers

/-- The words of a natural number, lowest first. -/
inductive Magnitude where
  -- no word is left
  | zero
  -- a word below all others
  | word (low : UInt64) (high : Magnitude)
deriving DecidableEq, Inhabited

namespace Magnitude

/-- The number that the words stand for. -/
def toNat : Magnitude → Nat
  | zero => 0
  | word low high => low.toNat + 2 ^ 64 * high.toNat

def Normal : Magnitude → Prop
  | zero => True
  | word low zero => low ≠ 0
  | word _ (word low high) => Normal (word low high)

/-- Whether no word is held. -/
@[inline] def isEmpty : Magnitude → Bool
  | zero => true
  | word _ _ => false

/-- A word below others, where a zero word below nothing is dropped. -/
@[inline] def push (low : UInt64) (high : Magnitude) : Magnitude :=
  match high with
  | zero => if low = 0 then zero else word low zero
  | high => word low high

/-- The same number without zero words at the top. -/
def trim : Magnitude → Magnitude
  | zero => zero
  | word low high => push low (trim high)

/-- The lowest word, zero when there is none. -/
@[inline] def lowWord : Magnitude → UInt64
  | zero => 0
  | word low _ => low

/-- The words above the lowest. -/
@[inline] def rest : Magnitude → Magnitude
  | zero => zero
  | word _ high => high

def ofWord (w : UInt64) : Magnitude := push w zero

def wordCount : Magnitude → Nat
  | zero => 0
  | word _ high => wordCount high + 1

def isZero : Magnitude → Bool
  | zero => true
  | word low high => low == 0 && isZero high

/-- The order of two words. -/
@[inline] def compareWord (x y : UInt64) : Ordering :=
  if x < y then .lt else if y < x then .gt else .eq

def compare : Magnitude → Magnitude → Ordering
  | zero, b => if b.isZero then .eq else .lt
  | word x xs, zero => if (word x xs).isZero then .eq else .gt
  | word x xs, word y ys => (compare xs ys).then (compareWord x y)

/-- How many binary digits a word takes: the least `k` with `w < 2 ^ k`. -/
def wordBits (w : UInt64) : Nat :=
  if w = 0 then 0 else w.log2.toNat + 1

/-- How many binary digits the number takes: the least `k` with `m < 2 ^ k`. -/
def bits : Magnitude → Nat
  | zero => 0
  | word low high =>
    -- zero words at the top take no digits
    let above := bits high
    if above = 0 then wordBits low else 64 + above

def testBit : Magnitude → Nat → Bool
  | zero, _ => false
  | word low high, place =>
    if place < 64 then (low >>> UInt64.ofNat place) &&& 1 == 1 else testBit high (place - 64)

def toBits (m : Magnitude) : List Bool :=
  (List.range m.bits).map m.testBit

def isOdd (m : Magnitude) : Bool := m.lowWord &&& 1 == 1

theorem normal_push (low : UInt64) {high : Magnitude} (h : high.Normal) :
    (push low high).Normal := by
  cases high with
  | zero => by_cases hz : low = 0 <;> simp [push, Normal, hz]
  | word next high => exact h

theorem normal_trim (m : Magnitude) : m.trim.Normal := by
  induction m with
  | zero => trivial
  | word low high ih => exact normal_push low ih

theorem toNat_push (low : UInt64) (high : Magnitude) :
    (push low high).toNat = low.toNat + 2 ^ 64 * high.toNat := by
  cases high with
  | zero => by_cases hz : low = 0 <;> simp [push, toNat, hz]
  | word next high => rfl

theorem toNat_trim (m : Magnitude) : m.trim.toNat = m.toNat := by
  induction m with
  | zero => rfl
  | word low high ih => rw [trim, toNat_push, ih, toNat]

theorem toNat_eq_lowWord_add (m : Magnitude) :
    m.toNat = m.lowWord.toNat + 2 ^ 64 * m.rest.toNat := by
  cases m <;> rfl

theorem toNat_ofWord (w : UInt64) : (ofWord w).toNat = w.toNat := by
  rw [ofWord, toNat_push, toNat, Nat.mul_zero, Nat.add_zero]

end Magnitude
end Signet
