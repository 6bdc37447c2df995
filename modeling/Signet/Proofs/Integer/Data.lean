import Mathlib
import Signet.Integer.Modular
import Signet.Integer.Text
import Signet.Proofs.Integer.Rows

/-! Integers whose data promise nothing. `Data` is a sign beside a row of words, which the operations
edit: they drop zero words at the top and the sign of zero at certain points only, flip or take a
sign in place, and go by the number of words and by the top word where they compare, count digits or
look for zero. On the data of integers they give the data of what the operations on integers give.
Main statements: `data_inj`, `settle_eq` and, for each operation, the lemma that is named for it. -/
namespace Signet.Integer

open Magnitude (bytesRow digitsRow sumRow differenceRow productRow divModRow compareRows)

/-- A sign beside a row of words. -/
structure Data where
  negative : Bool
  words : Magnitude
deriving DecidableEq

namespace Data

/-- The top word is not zero, and zero is not negative. -/
structure Canonical (s : Data) : Prop where
  normal : s.words.Normal
  zero_unsigned : s.words = .zero → s.negative = false

/-- Drops zero words at the top, and the sign when no word is left. -/
def settle (negative : Bool) (row : Magnitude) : Data :=
  let words := row.trim
  ⟨if words.isEmpty then false else negative, words⟩

def zero : Data := ⟨false, .zero⟩

def ofUInt64 (w : UInt64) : Data := settle false (.word w .zero)

def ofInt64 (n : Int64) : Data :=
  settle (n < 0) (.word (UInt64.ofNat n.toInt.natAbs) .zero)

def one : Data := ofUInt64 1

def ofBytes (bytes : Bytes) : Data := settle false (bytesRow bytes.reverse)

def load (bytes : Bytes) (width : ℕ) : Except Error Data :=
  if width % 8 ≠ 0 then .error .invalidParameter
  else if width > maxBits then .error .tooLarge
  else if bytes.length < width / 8 then .error .invalidParameter
  else .ok (ofBytes (bytes.take (width / 8)))

def ofDigits? (radix : ℕ) (negative : Bool) (digits : List Char) : Option Data :=
  if digits.isEmpty then none
  else (digits.mapM (digitValue? radix)).map fun values => settle negative (digitsRow radix values)

def ofAscii? (radix : ℕ) (bytes : Bytes) : Option Data :=
  let text := bytes.map fun b => Char.ofNat b.toNat
  if isRadix radix then
    if text.head? = some '-' then ofDigits? radix true text.tail else ofDigits? radix false text
  else none

/-- Whether no word is held. -/
def isZero (s : Data) : Bool := s.words.isEmpty

def isOne (s : Data) : Bool := !s.negative && s.words == .word 1 .zero

def compare (s t : Data) : Ordering :=
  match s.negative, t.negative with
  | false, true => .gt
  | true, false => .lt
  | false, false => compareRows s.words t.words
  | true, true => compareRows t.words s.words

/-- Flips the sign in place; zero has none to flip. -/
def neg (s : Data) : Data := if s.isZero then s else ⟨!s.negative, s.words⟩

def abs (s : Data) : Data := ⟨false, s.words⟩

def addSigned (aNegative : Bool) (a : Magnitude) (bNegative : Bool) (b : Magnitude) : Data :=
  if aNegative == bNegative then settle aNegative (sumRow a b)
  else
    match compareRows a b with
    | .gt => settle aNegative (differenceRow a b)
    | .lt => settle bNegative (differenceRow b a)
    | .eq => zero

def add (s t : Data) : Data := addSigned s.negative s.words t.negative t.words

def sub (s t : Data) : Data := addSigned s.negative s.words (!t.negative) t.words

def mul (s t : Data) : Data := settle (s.negative != t.negative) (productRow s.words t.words)

def divMod (s t : Data) : Data × Data :=
  if s.isZero || t.isZero then (zero, zero)
  else
    let (quotient, remainder) := divModRow s.words t.words
    let signsDiffer := s.negative != t.negative
    let q := settle signsDiffer quotient
    -- settled before the floor is taken, which asks whether something is left over
    let r := settle s.negative remainder
    if signsDiffer && !r.isZero then (q.sub one, r.add t) else (q, r)

def div (s t : Data) : Data := (divMod s t).1

def mod (s t : Data) : Data := (divMod s t).2

def shiftLeft (s : Data) (count : ℕ) : Data := settle s.negative (s.words.shiftRow count)

def halve (s : Data) : Data := settle s.negative s.words.halveRow

/-- Sets a digit in place, or clears one that the words reach to. -/
def setBit (s : Data) (place : ℕ) (value : Bool) : Except Error Data :=
  if place ≥ maxBits then .error .tooLarge
  -- the top word has the digit or is the one that was there
  else if value then .ok ⟨s.negative, s.words.setRow place⟩
  else if place / 64 < s.words.wordCount then .ok (settle s.negative (s.words.clearRow place))
  else .ok s

def powerUp (modulus : Data) : List Bool → Data → Data → Data
  | [], result, _ => result
  | [digit], result, power => if digit then (result.mul power).mod modulus else result
  | digit :: rest, result, power =>
    let result := if digit then (result.mul power).mod modulus else result
    powerUp modulus rest result ((power.mul power).mod modulus)

def modPow (base exponent modulus : Data) : Data :=
  if base.isZero || modulus.isZero || modulus.isOne then zero
  else if exponent.isZero then one
  else
    let digits := (List.range exponent.words.topBits).map exponent.words.testBit
    powerUp modulus digits one (base.mod modulus)

/-- As many divisions as on integers. -/
def euclidSteps (modulus : Data) : ℕ := 2 * modulus.words.topBits + 2

def invertDown (modulus : Data) : ℕ → Data → Data → Data → Data → Except Error Data
  | 0, _, _, _, _ => .error .notInvertible
  | steps + 1, big, little, s, t =>
    let (quotient, remainder) := divMod big little
    if remainder.isZero then if little.isOne then .ok t else .error .notInvertible
    else invertDown modulus steps little remainder t ((s.sub (quotient.mul t)).mod modulus)

def modInverse (s modulus : Data) : Except Error Data :=
  if s.isZero || s.negative || modulus.negative || modulus.compare s ≠ .gt then
    .error .invalidParameter
  else invertDown modulus modulus.euclidSteps modulus s zero one

def gcdDown : ℕ → Data → Data → Data
  | 0, larger, _ => larger
  | steps + 1, larger, smaller =>
    if smaller.isZero then larger else gcdDown steps smaller (larger.mod smaller)

def gcd (s t : Data) : Except Error Data :=
  if s.isZero || t.isZero then .error .invalidParameter
  else
    let a := s.abs
    let b := t.abs
    if b.compare a ≠ .gt then .ok (gcdDown a.euclidSteps a b) else .ok (gcdDown b.euclidSteps b a)

end Data

/-- The data that an integer holds. -/
def data (x : Integer) : Data := ⟨x.negative, x.magnitude⟩

section Data

variable (x y : Integer)

theorem canonical_data : x.data.Canonical := ⟨x.normal, x.zero_unsigned⟩

variable {x y} in
theorem data_inj : x.data = y.data ↔ x = y := by
  rw [data, data, Data.mk.injEq]
  cases x
  cases y
  rw [Integer.mk.injEq]

theorem data_ofMagnitude (negative : Bool) (m : Magnitude) :
    (ofMagnitude negative m).data = Data.settle negative m := by
  change Data.mk (negative && m.trim != .zero) m.trim = _
  rw [Data.settle]
  cases m.trim <;> cases negative <;> rfl

/-- What is settled depends on the number that the row stands for. -/
theorem settle_eq (negative : Bool) {row m : Magnitude} (h : row.toNat = m.toNat) :
    Data.settle negative row = (ofMagnitude negative m).data := by
  rw [← data_ofMagnitude, data_inj, ← toInt_inj, toInt_ofMagnitude, toInt_ofMagnitude, h]

/-- Canonical data have nothing to drop. -/
theorem Data.Canonical.settle_eq_self {s : Data} (h : s.Canonical) :
    settle s.negative s.words = s := by
  obtain ⟨negative, words⟩ := s
  rw [settle, h.normal.trim_eq]
  cases words with
  | zero =>
    obtain rfl : negative = false := h.zero_unsigned rfl
    rfl
  | word low high => rfl

theorem data_zero : (0 : Integer).data = .zero := rfl

theorem settle_word (negative : Bool) (w : UInt64) :
    Data.settle negative (.word w .zero) = (ofMagnitude negative (.ofWord w)).data := by
  apply settle_eq
  rw [Magnitude.toNat_ofWord, Magnitude.toNat, Magnitude.toNat, mul_zero, add_zero]

theorem data_ofUInt64 (w : UInt64) : (ofUInt64 w).data = .ofUInt64 w := (settle_word false w).symm

theorem data_one : (1 : Integer).data = .one := data_ofUInt64 1

theorem data_ofInt64 (n : Int64) : (ofInt64 n).data = .ofInt64 n := (settle_word _ _).symm

theorem data_ofBytes (bytes : Bytes) : (ofBytes bytes).data = .ofBytes bytes := by
  have hvalue := toInt_ofBytes bytes
  rw [ofBytes, toInt_ofMagnitude, if_neg Bool.false_ne_true] at hvalue
  refine (settle_eq false ?_).symm
  rw [Magnitude.toNat_bytesRow]
  exact_mod_cast hvalue.symm

theorem isZero_data : x.data.isZero = x.isZero := by
  rw [Bool.eq_iff_iff, isZero_iff, Data.isZero, Magnitude.isEmpty_iff, ← Int.natAbs_eq_zero,
    ← toNat_magnitude, ← x.normal.eq_zero_iff]
  rfl

theorem isOne_data : x.data.isOne = x.isOne := by
  rw [Bool.eq_iff_iff, isOne, beq_iff_eq, ← data_inj, Data.isOne, Bool.and_eq_true, beq_iff_eq,
    Bool.not_eq_true', data, data_one, Data.mk.injEq]
  rfl

theorem compare_data : x.data.compare y.data = x.compare y := by
  have hxy : compareRows x.data.words y.data.words = x.magnitude.compare y.magnitude := by
    rw [Magnitude.compare_eq]
    exact Magnitude.compareRows_eq x.normal y.normal
  have hyx : compareRows y.data.words x.data.words = y.magnitude.compare x.magnitude := by
    rw [Magnitude.compare_eq]
    exact Magnitude.compareRows_eq y.normal x.normal
  obtain ⟨_ | _, m, hm, hm'⟩ := x <;> obtain ⟨_ | _, n, hn, hn'⟩ := y
  · exact hxy
  · rfl
  · rfl
  · exact hyx

/-- A row of words in normal form keeps any sign, as long as there are words. -/
theorem settle_of_ne_zero (negative : Bool) {m : Magnitude} (h : m.Normal) (hne : m ≠ .zero) :
    Data.settle negative m = ⟨negative, m⟩ :=
  Data.Canonical.settle_eq_self (s := ⟨negative, m⟩) ⟨h, fun hzero => absurd hzero hne⟩

theorem data_neg : (-x).data = x.data.neg := by
  change (ofMagnitude (!x.negative) x.magnitude).data = _
  rw [data_ofMagnitude, Data.neg]
  -- zero is the one number whose flipped sign would have to be dropped again
  by_cases hzero : x.magnitude = .zero
  · have hdata : x.data = .zero := by rw [data, x.zero_unsigned hzero, hzero]; rfl
    rw [hdata, hzero]
    rfl
  · have hempty : ¬x.data.isZero = true := mt Magnitude.isEmpty_iff.mp hzero
    rw [if_neg hempty, settle_of_ne_zero _ x.normal hzero]
    rfl

theorem data_abs : x.abs.data = x.data.abs := by
  rw [abs, data_ofMagnitude]
  exact Data.Canonical.settle_eq_self (s := ⟨false, x.magnitude⟩) ⟨x.normal, fun _ => rfl⟩

theorem data_addSigned (s t : Bool) {a b : Magnitude} (ha : a.Normal) (hb : b.Normal) :
    (addSigned s a t b).data = Data.addSigned s a t b := by
  rw [addSigned, Data.addSigned, Magnitude.compareRows_eq ha hb, Magnitude.compare_eq,
    Magnitude.differenceRow_eq, Magnitude.differenceRow_eq]
  split
  · exact (settle_eq s (by rw [Magnitude.toNat_sumRow, Magnitude.toNat_add])).symm
  · cases Ord.compare a.toNat b.toNat with
    | gt => exact data_ofMagnitude s _
    | lt => exact data_ofMagnitude t _
    | eq => rfl

theorem data_add : (x + y).data = x.data.add y.data := data_addSigned _ _ x.normal y.normal

theorem data_sub : (x - y).data = x.data.sub y.data := data_addSigned _ _ x.normal y.normal

theorem data_mul : (x * y).data = x.data.mul y.data :=
  (settle_eq _ (by rw [Magnitude.toNat_productRow, Magnitude.toNat_mul]; rfl)).symm

theorem data_divMod :
    ((divMod x y).1.data, (divMod x y).2.data) = x.data.divMod y.data := by
  rw [divMod, Data.divMod, isZero_data, isZero_data]
  split
  · rfl
  -- the settled parts are the data of the two parts of integers, and the floor goes on from there
  · obtain ⟨hq, hr⟩ := Magnitude.toNat_divModRow x.normal y.normal
    have hquotient : Data.settle (x.data.negative != y.data.negative)
        (divModRow x.data.words y.data.words).1 =
          (ofMagnitude (x.negative != y.negative) (x.magnitude.divMod y.magnitude).1).data :=
      settle_eq _ hq
    have hremainder : Data.settle x.data.negative (divModRow x.data.words y.data.words).2 =
        (ofMagnitude x.negative (x.magnitude.divMod y.magnitude).2).data := settle_eq _ hr
    dsimp only
    rw [hquotient, hremainder, isZero_data, show x.data.negative = x.negative from rfl,
      show y.data.negative = y.negative from rfl]
    split_ifs
    · rw [data_sub, data_add, data_one]
    · rfl

theorem data_div : (x / y).data = x.data.div y.data := congrArg Prod.fst (data_divMod x y)

theorem data_mod : (x % y).data = x.data.mod y.data := congrArg Prod.snd (data_divMod x y)

theorem data_shiftLeft (count : ℕ) : (x.shiftLeft count).data = x.data.shiftLeft count :=
  (settle_eq _ (by rw [Magnitude.toNat_shiftLeft]; exact Magnitude.toNat_shiftRow _ _)).symm

theorem data_halve : x.halve.data = x.data.halve :=
  (settle_eq _ (congrArg _ (Magnitude.halveRow_eq _))).symm

theorem data_setBit (place : ℕ) (value : Bool) :
    (x.setBit place value).map data = x.data.setBit place value := by
  rw [setBit, Data.setBit]
  split
  · rfl
  · cases value with
    | true =>
      have hset := settle_of_ne_zero x.negative (Magnitude.normal_setRow x.normal place)
        (Magnitude.setRow_ne_zero _ _)
      refine congrArg Except.ok ((settle_eq _ ?_).symm.trans hset)
      exact Magnitude.toNat_setRow _ _
    | false =>
      have hclear := settle_eq x.negative (Magnitude.toNat_clearRow x.magnitude place)
      rw [if_neg Bool.false_ne_true, if_neg Bool.false_ne_true]
      split
      · exact congrArg Except.ok hclear.symm
      · next hlong =>
        have hself : x.magnitude.clearRow place = x.magnitude :=
          Magnitude.clearRow_eq_self (not_lt.mp hlong)
        rw [hself] at hclear
        exact congrArg Except.ok (hclear.symm.trans (canonical_data x).settle_eq_self)

/-- One digit of a power. -/
theorem data_step (digit : Bool) (m result power : Integer) :
    (if digit then result * power % m else result).data =
      if digit then (result.data.mul power.data).mod m.data else result.data := by
  cases digit with
  | false => rfl
  | true => rw [if_pos rfl, if_pos rfl, data_mod, data_mul]

theorem data_powerUp (m : Integer) (digits : List Bool) (result power : Integer) :
    (powerUp m digits result power).data =
      Data.powerUp m.data digits result.data power.data := by
  induction digits generalizing result power with
  | nil => rfl
  | cons digit rest ih =>
    cases rest with
    | nil => exact data_step digit m result power
    | cons next rest =>
      refine (ih _ _).trans ?_
      rw [data_step, data_mod, data_mul]
      rfl

theorem data_modPow (z : Integer) :
    (x.modPow y z).data = x.data.modPow y.data z.data := by
  rw [modPow, Data.modPow, isZero_data, isZero_data, isZero_data, isOne_data]
  split
  · rfl
  · split
    · exact data_one
    · rw [data_powerUp, data_mod, data_one, Magnitude.toBits, ← Magnitude.topBits_eq y.normal]
      rfl

theorem data_invertDown (m : Integer) (steps : ℕ) (big little s t : Integer) :
    (invertDown m steps big little s t).map data =
      Data.invertDown m.data steps big.data little.data s.data t.data := by
  induction steps generalizing big little s t with
  | zero => rfl
  | succ steps ih =>
    rw [invertDown, Data.invertDown, ← data_divMod]
    dsimp only
    rw [isZero_data, isOne_data]
    split
    · split <;> rfl
    · rw [ih, data_mod, data_sub, data_mul]

theorem euclidSteps_data : x.data.euclidSteps = x.euclidSteps := by
  rw [Data.euclidSteps, euclidSteps, data, Magnitude.topBits_eq x.normal, bits]

theorem data_modInverse : (x.modInverse y).map data = x.data.modInverse y.data := by
  have hguard : decide (y ≤ x) = decide (y.compare x ≠ .gt) := rfl
  rw [modInverse, Data.modInverse, isZero_data, compare_data, hguard,
    show x.data.negative = x.isNegative from rfl, show y.data.negative = y.isNegative from rfl]
  split
  · rfl
  · rw [data_invertDown, euclidSteps_data, data_zero, data_one]

theorem data_gcdDown (steps : ℕ) (larger smaller : Integer) :
    (gcdDown steps larger smaller).data = Data.gcdDown steps larger.data smaller.data := by
  induction steps generalizing larger smaller with
  | zero => rfl
  | succ steps ih =>
    rw [gcdDown, Data.gcdDown, isZero_data]
    split
    · rfl
    · rw [ih, data_mod]

theorem data_gcd : (x.gcd y).map data = x.data.gcd y.data := by
  rw [gcd, Data.gcd, isZero_data, isZero_data]
  split
  · rfl
  · dsimp only
    rw [← data_abs, ← data_abs, compare_data, euclidSteps_data, euclidSteps_data, ← data_gcdDown,
      ← data_gcdDown]
    change Except.map data (if y.abs.compare x.abs ≠ .gt then _ else _) = _
    split <;> rfl

theorem data_load (bytes : Bytes) (width : ℕ) :
    (load bytes width).map data = Data.load bytes width := by
  rw [load, Data.load]
  split_ifs
  · rfl
  · rfl
  · rfl
  · exact congrArg Except.ok (data_ofBytes _)

theorem data_ofDigits? (radix : ℕ) (negative : Bool) (digits : List Char) :
    (ofDigits? radix negative digits).map data = Data.ofDigits? radix negative digits := by
  rw [ofDigits?, Data.ofDigits?]
  split
  · rfl
  · rw [Option.map_map]
    congr 1
    funext values
    exact (settle_eq negative (Magnitude.toNat_digitsRow radix values)).symm

theorem data_ofAscii? (radix : ℕ) (bytes : Bytes) :
    (ofAscii? radix bytes).map data = Data.ofAscii? radix bytes := by
  unfold ofAscii? ofChars? Data.ofAscii?
  generalize bytes.map _ = text
  dsimp only
  split
  · split
    · exact data_ofDigits? _ _ _
    · next hplain =>
      rw [if_neg fun hhead => ?_]
      · exact data_ofDigits? _ _ _
      · obtain ⟨digits, htext⟩ := List.head?_eq_some_iff.mp hhead
        exact hplain digits htext
  · rfl

end Data

end Signet.Integer
