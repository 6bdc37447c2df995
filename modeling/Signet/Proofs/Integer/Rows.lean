import Mathlib
import Signet.Proofs.Integer.Octets

/-! Rows of words as they are edited. Here every step writes its words where they come to stand,
zero or not, and zero words at the top are dropped as a step of its own, at the places where a
later step counts on it: an order that looks at the number of words first and a count of binary
digits that looks at the top word only are right for rows in normal form alone. The rows stand for
the numbers that they should stand for. Main statements: `compareRows_eq`, `topBits_eq`,
`trim_subFrom`, `toNat_productRow`, `normal_setRow` and `toNat_divModRow`. -/
namespace Signet.Magnitude

section Trim

variable {m n : Magnitude}

theorem isEmpty_iff : m.isEmpty = true ↔ m = zero := by
  cases m <;> simp [isEmpty]

theorem Normal.trim_eq (h : m.Normal) : m.trim = m :=
  m.normal_trim.eq_of_toNat_eq h m.toNat_trim

theorem Normal.word (low : UInt64) (h : m.Normal) (hne : m ≠ zero) : (word low m).Normal := by
  cases m with
  | zero => exact absurd rfl hne
  | word next rest => exact h

/-- Words stand for less than the first number that asks for one word more. -/
theorem toNat_lt (m : Magnitude) : m.toNat < 2 ^ (64 * m.wordCount) := by
  induction m with
  | zero => exact Nat.one_pos
  | word low high ih =>
    have hlow := low.toNat_lt
    rw [toNat, wordCount, Nat.mul_succ, pow_add]
    omega

/-- Without a zero word at the top no word is spare. -/
theorem Normal.two_pow_le {low : UInt64} {high : Magnitude} (h : (Magnitude.word low high).Normal) :
    2 ^ (64 * high.wordCount) ≤ (Magnitude.word low high).toNat := by
  induction high generalizing low with
  | zero => exact Nat.one_le_iff_ne_zero.mpr h.toNat_word_ne_zero
  | word next rest ih =>
    have := @ih next h
    rw [toNat, wordCount, Nat.mul_succ, pow_add]
    omega

end Trim

section Order

/-- The order of two rows of one length, the top words first. -/
def compareDown : Magnitude → Magnitude → Ordering
  | word x xs, word y ys => (compareDown xs ys).then (compareWord x y)
  | _, _ => .eq

/-- The order that looks at the number of words before it looks at the words. -/
def compareRows (a b : Magnitude) : Ordering :=
  (Ord.compare a.wordCount b.wordCount).then (compareDown a b)

/-- The number of binary digits as the top word tells it. -/
def topBits : Magnitude → ℕ
  | zero => 0
  | word low zero => wordBits low
  | word _ (word low high) => 64 + topBits (word low high)

theorem compareDown_eq {a b : Magnitude} (h : a.wordCount = b.wordCount) :
    compareDown a b = a.compare b := by
  induction a generalizing b with
  | zero =>
    cases b with
    | zero => rfl
    | word y ys => exact absurd h (Nat.succ_ne_zero _).symm
  | word x xs ih =>
    cases b with
    | zero => exact absurd h (Nat.succ_ne_zero _)
    | word y ys => rw [compareDown, compare, ih (Nat.succ.inj h)]

theorem Normal.lt_of_wordCount_lt {a b : Magnitude} (hb : b.Normal)
    (h : a.wordCount < b.wordCount) : a.toNat < b.toNat := by
  cases b with
  | zero => exact absurd h (Nat.not_lt_zero _)
  | word y ys =>
    calc a.toNat < 2 ^ (64 * a.wordCount) := a.toNat_lt
      _ ≤ 2 ^ (64 * ys.wordCount) :=
        Nat.pow_le_pow_right two_pos (Nat.mul_le_mul_left _ (Nat.lt_succ_iff.mp h))
      _ ≤ (Magnitude.word y ys).toNat := hb.two_pow_le

theorem compareRows_eq {a b : Magnitude} (ha : a.Normal) (hb : b.Normal) :
    compareRows a b = Ord.compare a.toNat b.toNat := by
  rw [compareRows]
  rcases Nat.lt_trichotomy a.wordCount b.wordCount with h | h | h
  · rw [Nat.compare_eq_lt.mpr h, Nat.compare_eq_lt.mpr (hb.lt_of_wordCount_lt h)]
    rfl
  · rw [Nat.compare_eq_eq.mpr h, compareDown_eq h, compare_eq]
    rfl
  · rw [Nat.compare_eq_gt.mpr h, Nat.compare_eq_gt.mpr (ha.lt_of_wordCount_lt h)]
    rfl

theorem topBits_eq {m : Magnitude} (h : m.Normal) : m.topBits = m.bits := by
  induction m with
  | zero => rfl
  | word low high ih =>
    cases high with
    | zero => rfl
    | word next rest =>
      -- the words above the lowest take digits, as the top one is not zero
      have hne := mt (bits_eq_zero_iff (word next rest)).mp h.high.toNat_word_ne_zero
      rw [topBits, ih h.high, bits]
      exact (if_neg hne).symm

end Order

section Sums

/-- Adds a row that is no longer than the first, and a carry. -/
def addInto : Magnitude → Magnitude → Bool → Magnitude
  | zero, _, carry => if carry then word 1 zero else zero
  | word x xs, b, carry =>
    let sum := x + b.lowWord
    let total := sum + carry.toUInt64
    word total (addInto xs b.rest (decide (sum < x) || decide (total < sum)))

def sumRow (a b : Magnitude) : Magnitude :=
  if b.wordCount ≤ a.wordCount then addInto a b false else addInto b a false

/-- Takes a row and a borrow away, word by word until neither is left. -/
def subFrom : Magnitude → Magnitude → Bool → Magnitude
  | zero, _, _ => zero
  | word x xs, b, borrow =>
    if b.isEmpty && !borrow then word x xs
    else
      let difference := x - b.lowWord
      let total := difference - borrow.toUInt64
      word total
        (subFrom xs b.rest (decide (x < b.lowWord) || decide (difference < borrow.toUInt64)))

def differenceRow (a b : Magnitude) : Magnitude := (subFrom a b false).trim

theorem wordCount_rest (m : Magnitude) : m.rest.wordCount = m.wordCount - 1 := by
  cases m <;> rfl

theorem trim_addInto {a b : Magnitude} (carry : Bool) (h : b.wordCount ≤ a.wordCount) :
    (addInto a b carry).trim = addCarry a b carry := by
  induction a generalizing b carry with
  | zero =>
    cases b with
    | zero => cases carry <;> rfl
    | word y ys => exact absurd h (Nat.not_succ_le_zero _)
  | word x xs ih =>
    rw [addInto, addCarry, trim, ih _ (by rw [wordCount_rest]; rw [wordCount] at h; omega)]

theorem toNat_addInto {a b : Magnitude} (h : b.wordCount ≤ a.wordCount) :
    (addInto a b false).toNat = a.toNat + b.toNat := by
  rw [← toNat_trim, trim_addInto false h, toNat_addCarry]
  rfl

theorem toNat_sumRow (a b : Magnitude) : (sumRow a b).toNat = a.toNat + b.toNat := by
  rw [sumRow]
  split
  · next h => exact toNat_addInto h
  · next h => rw [toNat_addInto (Nat.le_of_not_le h), add_comm]

theorem subBorrow_zero (a : Magnitude) : subBorrow a zero false = a.trim := by
  induction a with
  | zero => rfl
  | word x xs ih =>
    have hx : ¬x < 0 := UInt64.not_lt.mpr UInt64.zero_le
    rw [subBorrow, lowWord, rest, UInt64.sub_zero, show false.toUInt64 = 0 from rfl,
      UInt64.sub_zero, decide_eq_false hx, Bool.or_false, ih, trim]

/-- Where the difference stops early there is nothing left to take away. -/
theorem trim_subFrom (a b : Magnitude) (borrow : Bool) :
    (subFrom a b borrow).trim = subBorrow a b borrow := by
  induction a generalizing b borrow with
  | zero => rfl
  | word x xs ih =>
    rw [subFrom]
    split
    -- the words that are left stay as they are, and so do the words less nothing
    · next h =>
      obtain ⟨hb, hborrow⟩ := Bool.and_eq_true_iff.mp h
      rw [Bool.not_eq_true'] at hborrow
      rw [isEmpty_iff.mp hb, hborrow, subBorrow_zero]
    · rw [trim, ih, subBorrow]

theorem differenceRow_eq (a b : Magnitude) : differenceRow a b = a.sub b :=
  trim_subFrom a b false

end Sums

section Products

/-- Puts zero words below a row. -/
def zerosBelow : ℕ → Magnitude → Magnitude
  | 0, m => m
  | count + 1, m => word 0 (zerosBelow count m)

/-- Adds `x` times a row and a carry to the words from a place on. The word above the row is
overwritten by the last carry. -/
def mulInto (x : UInt64) : Magnitude → Magnitude → UInt64 → Magnitude
  | zero, out, carry => word carry out.rest
  | word y ys, out, carry =>
    let product := wordProduct x y out.lowWord carry
    word (UInt64.ofNat product) (mulInto x ys out.rest (UInt64.ofNat (product >>> 64)))

def mulRowsInto : Magnitude → Magnitude → Magnitude → Magnitude
  | zero, _, out => out
  | word x xs, b, out =>
    let row := mulInto x b out 0
    word row.lowWord (mulRowsInto xs b row.rest)

def productRow (a b : Magnitude) : Magnitude :=
  if a.isEmpty || b.isEmpty then zero
  else (mulRowsInto a b (zerosBelow (a.wordCount + b.wordCount) zero)).trim

/-- The row times a word, with a carry from below. -/
def scaleRow (factor : UInt64) : Magnitude → UInt64 → Magnitude
  | zero, carry => if carry = 0 then zero else word carry zero
  | word low high, carry =>
    let product := wordProduct factor low 0 carry
    word (UInt64.ofNat product) (scaleRow factor high (UInt64.ofNat (product >>> 64)))

def digitsRow (base : ℕ) (digits : List ℕ) : Magnitude :=
  digits.foldl (fun row d => row.scaleRow (UInt64.ofNat base) (UInt64.ofNat d)) zero

theorem toNat_zerosBelow (count : ℕ) (m : Magnitude) :
    (zerosBelow count m).toNat = m.toNat * 2 ^ (64 * count) := by
  induction count with
  | zero => rw [zerosBelow, mul_zero, pow_zero, mul_one]
  | succ count ih =>
    rw [zerosBelow, toNat, ih, UInt64.toNat_zero, Nat.mul_succ, pow_add]
    ring

theorem wordCount_zerosBelow (count : ℕ) (m : Magnitude) :
    (zerosBelow count m).wordCount = count + m.wordCount := by
  induction count with
  | zero => exact (zero_add _).symm
  | succ count ih =>
    rw [zerosBelow, wordCount, ih]
    omega

theorem toNat_rest_lt {m : Magnitude} {count : ℕ} (h : m.toNat < 2 ^ (64 * (count + 1))) :
    m.rest.toNat < 2 ^ (64 * count) := by
  rw [toNat_eq_lowWord_add, Nat.mul_succ, pow_add] at h
  omega

/-- The overwritten word is zero as long as the words up to there take what is written. -/
theorem toNat_mulInto (x : UInt64) {b out : Magnitude} (carry : UInt64)
    (h : out.toNat < 2 ^ (64 * b.wordCount)) :
    (mulInto x b out carry).toNat = x.toNat * b.toNat + out.toNat + carry.toNat := by
  induction b generalizing out carry with
  | zero =>
    have hsplit := toNat_eq_lowWord_add out
    rw [wordCount, mul_zero, pow_zero] at h
    rw [mulInto, toNat, toNat]
    omega
  | word y ys ih =>
    have hproduct := wordProduct_split x y out.lowWord carry
    have hx : x.toNat * (y.toNat + 2 ^ 64 * ys.toNat) =
        x.toNat * y.toNat + 2 ^ 64 * (x.toNat * ys.toNat) := by ring
    rw [mulInto, toNat, ih _ (toNat_rest_lt h), toNat, toNat_eq_lowWord_add out, hx]
    omega

theorem toNat_mulRowsInto {a b out : Magnitude} (h : out.toNat < 2 ^ (64 * b.wordCount)) :
    (mulRowsInto a b out).toNat = out.toNat + a.toNat * b.toNat := by
  induction a generalizing out with
  | zero => rw [mulRowsInto, toNat, zero_mul, add_zero]
  | word x xs ih =>
    -- a row takes one word more than `b`, and its lowest word is left behind
    have hrow := toNat_mulInto x 0 h
    have hfits : (mulInto x b out 0).toNat < 2 ^ (64 * (b.wordCount + 1)) := by
      have hx := x.toNat_lt
      have hb := b.toNat_lt
      rw [hrow, UInt64.toNat_zero, Nat.mul_succ, pow_add]
      generalize 2 ^ (64 * b.wordCount) = bound at h hb
      calc x.toNat * b.toNat + out.toNat + 0 < x.toNat * b.toNat + bound := by omega
        _ ≤ (2 ^ 64 - 1) * bound + bound :=
          Nat.add_le_add_right (Nat.mul_le_mul (by omega) hb.le) bound
        _ = bound * 2 ^ 64 := by omega
    have hsplit := toNat_eq_lowWord_add (mulInto x b out 0)
    rw [UInt64.toNat_zero] at hrow
    rw [mulRowsInto, toNat, ih (toNat_rest_lt hfits), toNat, Nat.add_mul, Nat.mul_assoc]
    omega

theorem toNat_productRow (a b : Magnitude) : (productRow a b).toNat = a.toNat * b.toNat := by
  rw [productRow]
  split
  · next h =>
    rcases Bool.or_eq_true_iff.mp h with h | h
    · rw [isEmpty_iff.mp h, toNat, zero_mul]
    · rw [isEmpty_iff.mp h, toNat, mul_zero]
  · have hempty : (zerosBelow (a.wordCount + b.wordCount) zero).toNat = 0 := by
      rw [toNat_zerosBelow, toNat, zero_mul]
    rw [toNat_trim, toNat_mulRowsInto (by rw [hempty]; exact Nat.two_pow_pos _), hempty, zero_add]

theorem toNat_scaleRow (m : Magnitude) (factor carry : UInt64) :
    (m.scaleRow factor carry).toNat = m.toNat * factor.toNat + carry.toNat := by
  induction m generalizing carry with
  | zero =>
    rw [scaleRow, toNat, zero_mul, zero_add]
    split
    · next h => rw [h, toNat, UInt64.toNat_zero]
    · rw [toNat, toNat, mul_zero, add_zero]
  | word low high ih =>
    have hproduct := wordProduct_split factor low 0 carry
    rw [UInt64.toNat_zero, add_zero] at hproduct
    rw [scaleRow, toNat, ih, toNat, add_mul, mul_assoc, mul_comm low.toNat]
    omega

theorem toNat_digitsRow (base : ℕ) (digits : List ℕ) :
    (digitsRow base digits).toNat = (ofDigits base digits).toNat := by
  induction digits using List.reverseRecOn with
  | nil => rfl
  | append_singleton digits d ih =>
    rw [digitsRow, ofDigits] at ih
    rw [digitsRow, ofDigits, List.foldl_append, List.foldl_append, List.foldl_cons, List.foldl_cons,
      List.foldl_nil, List.foldl_nil, toNat_scaleRow, toNat_mulAddWord, ih]

end Products

section Places

/-- Shifts every word up by `bits < 64` places, with the digits that come from below. -/
def shiftInto (bits : ℕ) : Magnitude → UInt64 → Magnitude
  | zero, carry => word carry zero
  | word low high, carry =>
    word ((low <<< UInt64.ofNat bits) ||| carry)
      (shiftInto bits high (low >>> UInt64.ofNat (64 - bits)))

def shiftRow (m : Magnitude) (count : ℕ) : Magnitude :=
  if m.isEmpty then zero
  else
    (zerosBelow (count / 64) (if count % 64 = 0 then m else shiftInto (count % 64) m 0)).trim

/-- Shifts every word down by one place, with the digit that comes from above. -/
def halveInto : Magnitude → Magnitude
  | zero => zero
  | word low high => word ((low >>> 1) ||| (high.lowWord <<< 63)) (halveInto high)

def halveRow (m : Magnitude) : Magnitude := m.halveInto.trim

/-- Sets a binary digit where it stands. Zero words are put below it when the row is too short. -/
def setRow : Magnitude → ℕ → Magnitude
  | zero, place => zerosBelow (place / 64) (word (1 <<< UInt64.ofNat (place % 64)) zero)
  | word low high, place =>
    if place < 64 then word (low ||| (1 <<< UInt64.ofNat place)) high
    else word low (setRow high (place - 64))

def clearRow : Magnitude → ℕ → Magnitude
  | zero, _ => zero
  | word low high, place =>
    if place < 64 then word (low &&& ~~~(1 <<< UInt64.ofNat place)) high
    else word low (clearRow high (place - 64))

/-- A word whose lower digits come from another one. -/
theorem toNat_shiftLeft_or {bits : ℕ} (hbits : bits < 64) (low carry : UInt64)
    (hcarry : carry.toNat < 2 ^ bits) :
    ((low <<< UInt64.ofNat bits) ||| carry).toNat =
      2 ^ bits * (low.toNat % 2 ^ (64 - bits)) + carry.toNat := by
  have hshift : (low <<< UInt64.ofNat bits).toNat = 2 ^ bits * (low.toNat % 2 ^ (64 - bits)) := by
    rw [UInt64.toNat_shiftLeft, toNat_ofNat_mod, show bits % 2 ^ 64 % 64 = bits by omega,
      Nat.shiftLeft_eq, mul_comm, ← Nat.mul_mod_mul_left, ← pow_add,
      show bits + (64 - bits) = 64 by omega]
  rw [UInt64.toNat_or, hshift, Nat.two_pow_add_eq_or_of_lt hcarry]

theorem toNat_shiftRight_rest {bits : ℕ} (hpos : 0 < bits) (low : UInt64) :
    (low >>> UInt64.ofNat (64 - bits)).toNat = low.toNat / 2 ^ (64 - bits) := by
  rw [UInt64.toNat_shiftRight, toNat_ofNat_mod,
    show (64 - bits) % 2 ^ 64 % 64 = 64 - bits by omega, Nat.shiftRight_eq_div_pow]

theorem toNat_shiftInto {bits : ℕ} (hpos : 0 < bits) (hbits : bits < 64) (m : Magnitude)
    (carry : UInt64) (hcarry : carry.toNat < 2 ^ bits) :
    (m.shiftInto bits carry).toNat = m.toNat * 2 ^ bits + carry.toNat := by
  induction m generalizing carry with
  | zero => rw [shiftInto, toNat, toNat, toNat, zero_mul, mul_zero, zero_add, add_zero]
  | word low high ih =>
    have hlow := low.toNat_lt
    have hpow : 2 ^ bits * 2 ^ (64 - bits) = 2 ^ 64 := by
      rw [← pow_add, show bits + (64 - bits) = 64 by omega]
    have hover : (low >>> UInt64.ofNat (64 - bits)).toNat < 2 ^ bits := by
      rw [toNat_shiftRight_rest hpos]
      exact Nat.div_lt_of_lt_mul (by rw [mul_comm, hpow]; exact hlow)
    have hsplit := Nat.div_add_mod low.toNat (2 ^ (64 - bits))
    rw [shiftInto, toNat, ih _ hover, toNat_shiftLeft_or hbits low carry hcarry,
      toNat_shiftRight_rest hpos, toNat]
    calc 2 ^ bits * (low.toNat % 2 ^ (64 - bits)) + carry.toNat +
          2 ^ 64 * (high.toNat * 2 ^ bits + low.toNat / 2 ^ (64 - bits))
        = 2 ^ bits * (2 ^ (64 - bits) * (low.toNat / 2 ^ (64 - bits)) +
            low.toNat % 2 ^ (64 - bits)) + 2 ^ 64 * high.toNat * 2 ^ bits + carry.toNat := by
          rw [← hpow]
          ring
      _ = (low.toNat + 2 ^ 64 * high.toNat) * 2 ^ bits + carry.toNat := by
          rw [hsplit]
          ring

theorem toNat_shiftRow (m : Magnitude) (count : ℕ) :
    (m.shiftRow count).toNat = m.toNat * 2 ^ count := by
  have hpow : 2 ^ (count % 64) * 2 ^ (64 * (count / 64)) = 2 ^ count := by
    rw [← pow_add, Nat.mod_add_div]
  rw [shiftRow]
  split
  · next h => rw [isEmpty_iff.mp h, toNat, zero_mul]
  · rw [toNat_trim, toNat_zerosBelow, ← hpow]
    split
    · next h => rw [h, pow_zero, one_mul]
    · next h =>
      rw [toNat_shiftInto (Nat.pos_of_ne_zero h) (Nat.mod_lt _ (by norm_num)) m 0
        (Nat.two_pow_pos _), UInt64.toNat_zero, add_zero, mul_assoc]

theorem halveRow_eq (m : Magnitude) : m.halveRow = m.halve := by
  rw [halveRow]
  induction m with
  | zero => rfl
  | word low high ih => rw [halveInto, trim, ih, halve]

theorem toNat_setRow (m : Magnitude) (place : ℕ) :
    (m.setRow place).toNat = (m.setBit place).toNat := by
  induction m generalizing place with
  | zero =>
    rw [setRow, setBit, toNat_zerosBelow, toNat_shiftWords, toNat_ofWord, toNat, toNat, mul_zero,
      add_zero]
  | word low high ih =>
    rw [setRow, setBit]
    split
    · rw [toNat_push, toNat]
    · rw [toNat_push, toNat, ih]

theorem toNat_clearRow (m : Magnitude) (place : ℕ) :
    (m.clearRow place).toNat = (m.clearBit place).toNat := by
  induction m generalizing place with
  | zero => rfl
  | word low high ih =>
    rw [clearRow, clearBit]
    split
    · rw [toNat_push, toNat]
    · rw [toNat_push, toNat, ih]

/-- There is no digit beyond the words. -/
theorem clearRow_eq_self {m : Magnitude} {place : ℕ} (h : m.wordCount ≤ place / 64) :
    m.clearRow place = m := by
  induction m generalizing place with
  | zero => rfl
  | word low high ih =>
    rw [wordCount] at h
    rw [clearRow, if_neg (by omega), ih (by omega)]

theorem zerosBelow_ne_zero (count : ℕ) {m : Magnitude} (h : m ≠ zero) :
    zerosBelow count m ≠ zero := by
  cases count with
  | zero => exact h
  | succ count => exact nofun

theorem normal_zerosBelow (count : ℕ) {m : Magnitude} (h : m.Normal) (hne : m ≠ zero) :
    (zerosBelow count m).Normal := by
  induction count with
  | zero => exact h
  | succ count ih => exact ih.word 0 (zerosBelow_ne_zero count hne)

theorem setRow_ne_zero (m : Magnitude) (place : ℕ) : m.setRow place ≠ zero := by
  cases m with
  | zero => exact zerosBelow_ne_zero _ nofun
  | word low high =>
    rw [setRow]
    split <;> exact nofun

theorem one_shiftLeft_ne_zero {place : ℕ} (h : place < 64) :
    (1 : UInt64) <<< UInt64.ofNat place ≠ 0 := by
  rw [Ne, ← UInt64.toNat_inj, toNat_one_shiftLeft h, UInt64.toNat_zero]
  exact (Nat.two_pow_pos place).ne'

/-- A digit that is set never leaves a zero word at the top: the top word has this digit, or it is
the one that was there. -/
theorem normal_setRow {m : Magnitude} (h : m.Normal) (place : ℕ) : (m.setRow place).Normal := by
  induction m generalizing place with
  | zero =>
    exact normal_zerosBelow _ (one_shiftLeft_ne_zero (Nat.mod_lt _ (by norm_num))) nofun
  | word low high ih =>
    rw [setRow]
    split
    · next hplace =>
      cases high with
      | zero =>
        change low ||| (1 <<< UInt64.ofNat place) ≠ 0
        rw [Ne, UInt64.or_eq_zero_iff]
        exact fun hzero => one_shiftLeft_ne_zero hplace hzero.2
      | word next rest => exact h
    · exact (ih h.high _).word low (setRow_ne_zero high _)

end Places

section Division

/-- The long division on rows: the remainder and the divisor are kept without zero words at the
top, and the quotient fills a row of zeros. -/
def divideRow : ℕ → Magnitude → Magnitude → Magnitude → Magnitude × Magnitude
  | 0, remainder, _, quotient => (quotient, remainder)
  | place + 1, remainder, divisor, quotient =>
    if compareRows remainder divisor = .lt then
      divideRow place remainder divisor.halveRow quotient
    else
      divideRow place (differenceRow remainder divisor) divisor.halveRow (quotient.setRow place)

def divModRow (a b : Magnitude) : Magnitude × Magnitude :=
  if compareRows a b = .lt then (zero, a)
  else
    let shift := a.topBits - b.topBits
    divideRow (shift + 1) a (b.shiftRow shift) (zerosBelow (shift / 64 + 1) zero)

theorem toNat_divideRow {r d r' d' q q' : Magnitude} (places : ℕ) (hr : r.Normal) (hd : d.Normal)
    (hrr : r.toNat = r'.toNat) (hdd : d.toNat = d'.toNat) (hqq : q.toNat = q'.toNat) :
    (divideRow places r d q).1.toNat = (divideDown places r' d' q').1.toNat ∧
      (divideRow places r d q).2.toNat = (divideDown places r' d' q').2.toNat := by
  -- the remainder and the divisor are trimmed after each step, so that their order stays right
  induction places generalizing r d r' d' q q' with
  | zero => exact ⟨hqq, hrr⟩
  | succ place ih =>
    have hhalf : d.halveRow.toNat = d'.halve.toNat := by
      rw [halveRow_eq, toNat_halve, toNat_halve, hdd]
    rw [divideRow, divideDown, compareRows_eq hr hd, compare_eq, hrr, hdd]
    split
    · exact ih hr (normal_trim _) hrr hhalf hqq
    · next hge =>
      have hle : d'.toNat ≤ r'.toNat := not_lt.mp (mt Nat.compare_eq_lt.mpr hge)
      refine ih (normal_trim _) (normal_trim _) ?_ hhalf ?_
      · rw [differenceRow_eq, toNat_sub r d (by omega), toNat_sub r' d' hle, hrr, hdd]
      · rw [toNat_setRow, toNat_setBit, toNat_setBit, hqq]

theorem toNat_divModRow {a b : Magnitude} (ha : a.Normal) (hb : b.Normal) :
    (divModRow a b).1.toNat = (a.divMod b).1.toNat ∧
      (divModRow a b).2.toNat = (a.divMod b).2.toNat := by
  rw [divModRow, divMod, compareRows_eq ha hb, compare_eq]
  split
  · exact ⟨rfl, rfl⟩
  · have hdivisor (shift : ℕ) : (b.shiftRow shift).Normal := by
      rw [shiftRow]
      split
      · trivial
      · exact normal_trim _
    rw [topBits_eq ha, topBits_eq hb]
    refine toNat_divideRow _ ha (hdivisor _) rfl ?_ ?_
    · rw [toNat_shiftRow, toNat_shiftLeft]
    · rw [toNat_zerosBelow, toNat, zero_mul]

end Division

section Octets

/-- Words of eight bytes each, the lowest byte first. -/
def bytesRow : Bytes → Magnitude
  | [] => zero
  | b :: rest =>
    word (UInt64.ofNat (Bytes.ofLittleEndian ((b :: rest).take 8))) (bytesRow (rest.drop 7))
termination_by bytes => bytes.length
decreasing_by
  rw [List.length_drop, List.length_cons]
  omega

theorem toNat_bytesRow (bytes : Bytes) : (bytesRow bytes).toNat = Bytes.ofLittleEndian bytes := by
  fun_induction bytesRow bytes with
  | case1 => rfl
  | case2 b rest ih =>
    have hfits := Bytes.ofLittleEndian_lt ((b :: rest).take 8)
    have hsplit := Bytes.ofLittleEndian_append ((b :: rest).take 8) ((b :: rest).drop 8)
    have hdrop : (b :: rest).drop 8 = rest.drop 7 := rfl
    rw [List.take_append_drop, hdrop] at hsplit
    rw [toNat, ih, toNat_ofNat_mod, hsplit]
    by_cases hlong : 8 ≤ (b :: rest).length
    · rw [List.length_take_of_le hlong] at hfits ⊢
      rw [Nat.mod_eq_of_lt (hfits.trans_eq (by norm_num)), show 256 ^ 8 = 2 ^ 64 by norm_num]
    · -- the last word is short, and nothing stands above it
      have hshort : (b :: rest).length < 8 := not_le.mp hlong
      have hpow : 256 ^ ((b :: rest).take 8).length ≤ 256 ^ 8 :=
        Nat.pow_le_pow_right (by norm_num) (List.length_take_le 8 _)
      rw [← hdrop, List.drop_eq_nil_of_le hshort.le, Bytes.ofLittleEndian, mul_zero, mul_zero,
        Nat.mod_eq_of_lt (hfits.trans_le (hpow.trans_eq (by norm_num)))]

end Octets

end Signet.Magnitude
