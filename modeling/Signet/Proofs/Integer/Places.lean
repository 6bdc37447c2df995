import Mathlib
import Signet.Proofs.Integer.Canonical
import Signet.Proofs.Integer.Product

/-! Binary digits by their places. The operations that look at digits, count them, move them or
change one are those on the absolute value, under the sign that was there. The data that they edit
are followed beside them: a digit is looked up in the word that its place falls into, and the count
comes from the number of words and the top word, in a register of 32 digits that it has to fit.
Main statement: `places_exact`. -/
namespace Signet

namespace Magnitude

/-- A digit is one of the 64 in the word that its place falls into; beyond the words there is
none. -/
def digitAt (m : Magnitude) (place : ℕ) : Bool :=
  (m.wordAt? (place / 64)).any fun w => (w >>> UInt64.ofNat (place % 64)) &&& 1 == 1

/-- A number that a register of 32 digits holds. -/
def register? (n : ℕ) : Option ℕ := if n < 2 ^ 32 then some n else none

/-- The count of digits from the number of words and the top word, where no step of it leaves the
register. -/
def digitCount? (m : Magnitude) : Option ℕ :=
  match m.wordAt? (m.wordCount - 1) with
  | none => some 0
  | some top => do
    let words ← register? m.wordCount
    let below ← register? ((words - 1) * 64)
    register? (below + wordBits top)

theorem digitAt_eq (m : Magnitude) (place : ℕ) : m.digitAt place = m.testBit place := by
  induction m generalizing place with
  | zero => rfl
  | word low high ih =>
    rw [digitAt, testBit]
    split
    · next h =>
      rw [Nat.div_eq_of_lt h, Nat.mod_eq_of_lt h]
      rfl
    · next h =>
      -- a place above the lowest word is one of the words above, 64 places lower
      obtain ⟨above, rfl⟩ := Nat.exists_eq_add_of_le (not_lt.mp h)
      rw [Nat.add_sub_cancel_left, ← ih, digitAt, Nat.add_mod_left,
        show (64 + above) / 64 = above / 64 + 1 by omega]
      rfl

/-- The top word is the only one that is not counted in full. -/
theorem topBits_of_top {m : Magnitude} {top : UInt64}
    (h : m.wordAt? (m.wordCount - 1) = some top) :
    m.topBits = (m.wordCount - 1) * 64 + wordBits top := by
  induction m with
  | zero => cases h
  | word low high ih =>
    cases high with
    | zero =>
      obtain rfl : low = top := Option.some.inj h
      exact (Nat.zero_add _).symm
    | word next rest =>
      have hrest := ih h
      rw [wordCount] at hrest
      rw [topBits, hrest, wordCount, wordCount]
      omega

theorem register?_of_lt {n : ℕ} (h : n < 2 ^ 32) : register? n = some n := if_pos h

theorem register?_of_le {n : ℕ} (h : 2 ^ 32 ≤ n) : register? n = none := if_neg (not_lt.mpr h)

/-- What the count goes through on its way is no more than what it comes to. -/
theorem register?_steps (words digits : ℕ) :
    (do
      let words ← register? words
      let below ← register? ((words - 1) * 64)
      register? (below + digits)) = register? ((words - 1) * 64 + digits) := by
  rcases Nat.lt_or_ge words (2 ^ 32) with hwords | hwords
  · rw [register?_of_lt hwords, Option.bind_eq_bind, Option.bind_some]
    rcases Nat.lt_or_ge ((words - 1) * 64) (2 ^ 32) with hbelow | hbelow
    · rw [register?_of_lt hbelow, Option.bind_some]
    · rw [register?_of_le hbelow, register?_of_le (Nat.le_add_right_of_le hbelow)]
      rfl
  · rw [register?_of_le hwords,
      register?_of_le (show 2 ^ 32 ≤ (words - 1) * 64 + digits by omega)]
    rfl

theorem digitCount?_eq (m : Magnitude) :
    m.digitCount? = if m.topBits < 2 ^ 32 then some m.topBits else none := by
  rw [digitCount?]
  cases htop : m.wordAt? (m.wordCount - 1) with
  | none =>
    cases m with
    | zero => rfl
    | word low high =>
      -- the words that are counted are there
      exfalso
      induction high generalizing low with
      | zero => cases htop
      | word next rest ih => exact ih next htop
  | some top =>
    rw [topBits_of_top htop]
    exact register?_steps m.wordCount (wordBits top)

end Magnitude

namespace Integer

section Sizes

variable (negative : Bool) (m : Magnitude)

theorem natAbs_ofMagnitude : (ofMagnitude negative m).toInt.natAbs = m.toNat := by
  rw [toInt_ofMagnitude]
  split
  · rw [Int.natAbs_neg, Int.natAbs_natCast]
  · exact Int.natAbs_natCast _

/-- The sign is kept unless nothing is left that could have one. -/
theorem isNegative_ofMagnitude :
    (ofMagnitude negative m).isNegative = true ↔
      negative = true ∧ ofMagnitude negative m ≠ 0 := by
  rw [isNegative_iff, Ne, ← toInt_inj, toInt_zero, toInt_ofMagnitude]
  cases negative with
  | false => simp
  | true =>
    rw [if_pos rfl]
    simp only [true_and]
    omega

end Sizes

variable (x : Integer)

theorem testBit_eq (place : ℕ) : x.testBit place = x.toInt.natAbs.testBit place := by
  rw [testBit, Magnitude.testBit_eq, toNat_magnitude]

theorem bits_eq_size : x.bits = x.toInt.natAbs.size := by
  apply le_antisymm
  · rw [bits_le_iff]
    exact Nat.lt_size_self _
  · rw [Nat.size_le, ← bits_le_iff]

theorem isLeast_bits : IsLeast {k | x.toInt.natAbs < 2 ^ k} x.bits :=
  ⟨(x.bits_le_iff _).mp le_rfl, fun k hk => (x.bits_le_iff k).mpr hk⟩

theorem digitCount?_magnitude :
    x.magnitude.digitCount? = if x.bits < 2 ^ 32 then some x.bits else none := by
  rw [Magnitude.digitCount?_eq, Magnitude.topBits_eq x.normal]
  rfl

theorem toInt_shiftLeft (count : ℕ) : (x.shiftLeft count).toInt = x.toInt * 2 ^ count := by
  rw [shiftLeft, toInt_ofMagnitude, Magnitude.toNat_shiftLeft, toInt]
  push_cast
  split
  · rw [neg_mul]
  · rfl

theorem bits_shiftLeft (count : ℕ) (hx : x ≠ 0) : (x.shiftLeft count).bits = x.bits + count := by
  have hsize : x.toInt.natAbs ≠ 0 := by
    rwa [Int.natAbs_ne_zero, ← toInt_zero, Ne, toInt_inj]
  have hvalue : (x.shiftLeft count).toInt.natAbs = x.toInt.natAbs <<< count := by
    rw [toInt_shiftLeft, Int.natAbs_mul, Int.natAbs_pow, Nat.shiftLeft_eq]
    rfl
  rw [bits_eq_size, bits_eq_size, hvalue, Nat.size_shiftLeft hsize]

theorem natAbs_halve : x.halve.toInt.natAbs = x.toInt.natAbs / 2 := by
  rw [halve, natAbs_ofMagnitude, Magnitude.toNat_halve, toNat_magnitude]

/-- One digit is changed, the others and the sign stay. -/
theorem exists_setBit {place : ℕ} (value : Bool) (h : place < maxBits) :
    ∃ y, x.setBit place value = .ok y ∧
      (∀ i, y.toInt.natAbs.testBit i = if i = place then value else x.toInt.natAbs.testBit i) ∧
      (y.isNegative = true ↔ x.isNegative = true ∧ y ≠ 0) := by
  rw [setBit, if_neg (not_le.mpr h), ← toNat_magnitude]
  cases value with
  | true =>
    refine ⟨_, rfl, fun i => ?_, isNegative_ofMagnitude _ _⟩
    rw [natAbs_ofMagnitude, Magnitude.testBit_setBit]
    split
    · next hi => rw [decide_eq_true hi, Bool.true_or]
    · next hi => rw [decide_eq_false hi, Bool.false_or]
  | false =>
    refine ⟨_, rfl, fun i => ?_, isNegative_ofMagnitude _ _⟩
    rw [natAbs_ofMagnitude, Magnitude.testBit_clearBit]
    split
    · next hi => rw [decide_eq_false (not_not.mpr hi), Bool.false_and]
    · next hi => rw [decide_eq_true hi, Bool.true_and]

theorem setBit_of_le {place : ℕ} (value : Bool) (h : maxBits ≤ place) :
    x.setBit place value = .error .tooLarge := if_pos h

/-- What is done to binary digits is done to those of the absolute value, under the sign, and to the
data that are edited for it. A digit that is out of bounds is refused, and the variable that it was
for stays as it is. -/
theorem places_exact :
    (∀ place, x.testBit place = x.toInt.natAbs.testBit place ∧
        x.magnitude.digitAt place = x.testBit place) ∧
      (IsLeast {k | x.toInt.natAbs < 2 ^ k} x.bits ∧
        x.magnitude.digitCount? = if x.bits < 2 ^ 32 then some x.bits else none) ∧
      (∀ count, (x.shiftLeft count).toInt = x.toInt * 2 ^ count ∧
        (x ≠ 0 → (x.shiftLeft count).bits = x.bits + count) ∧
        x.data.shiftLeft count = (x.shiftLeft count).data) ∧
      (x.halve.toInt.natAbs = x.toInt.natAbs / 2 ∧
        (x.halve.isNegative = true ↔ x.isNegative = true ∧ x.halve ≠ 0) ∧
        x.data.halve = x.halve.data) ∧
      (∀ place value, place < maxBits → ∃ y, x.setBit place value = .ok y ∧
        (∀ i, y.toInt.natAbs.testBit i =
          if i = place then value else x.toInt.natAbs.testBit i) ∧
        (y.isNegative = true ↔ x.isNegative = true ∧ y ≠ 0) ∧
        x.data.setBit place value = .ok y.data) ∧
      ∀ place value, maxBits ≤ place → x.setBit place value = .error .tooLarge ∧
        x.data.setBit place value = .error .tooLarge ∧
        ∀ (vars : ℕ → Data) (i : ℕ), vars i = x.data →
          assign vars i ((Call.setBit i place value).edit vars) = vars := by
  refine ⟨fun place => ⟨x.testBit_eq place, x.magnitude.digitAt_eq place⟩,
    ⟨x.isLeast_bits, x.digitCount?_magnitude⟩, fun count => ⟨x.toInt_shiftLeft count,
      x.bits_shiftLeft count, (data_shiftLeft x count).symm⟩,
    ⟨x.natAbs_halve, isNegative_ofMagnitude _ _, (data_halve x).symm⟩, ?_, ?_⟩
  · intro place value h
    obtain ⟨y, hy, hdigits, hsign⟩ := x.exists_setBit value h
    have hdata := data_setBit x place value
    rw [hy] at hdata
    exact ⟨y, hy, hdigits, hsign, hdata.symm⟩
  · intro place value h
    have hrefused := x.setBit_of_le value h
    have hdata := data_setBit x place value
    rw [hrefused] at hdata
    refine ⟨hrefused, hdata.symm, fun vars i hi => ?_⟩
    have hcall : (Call.setBit i place value).edit vars = none := by
      rw [Call.edit, hi, ← hdata]
      rfl
    rw [hcall, assign]

/-- Below zero by two words: the digit that is cleared is the only one, and the sign goes with it. -/
theorem places_exact_sample :
    let x := ofMagnitude true (.word 0 (.word 1 .zero))
    (x ≠ 0 ∧ (x.shiftLeft 70).bits = x.bits + 70 ∧ x.bits = 65) ∧
      (64 < maxBits ∧ ∃ y, x.setBit 64 false = .ok y ∧
        (∀ i, y.toInt.natAbs.testBit i = if i = 64 then false else x.toInt.natAbs.testBit i) ∧
        (y.isNegative = true ↔ x.isNegative = true ∧ y ≠ 0) ∧ y = 0) ∧
      (maxBits ≤ 2 ^ 31 ∧ x.setBit (2 ^ 31) true = .error .tooLarge ∧
        assign (fun _ => x.data) 0 ((Call.setBit 0 (2 ^ 31) true).edit fun _ => x.data) =
          fun _ => x.data) := by
  intro x
  have hx : x ≠ 0 := by decide
  have hlow : 64 < maxBits := by decide
  have hhigh : maxBits ≤ 2 ^ 31 := by decide
  obtain ⟨-, -, hshift, -, hset, hrefused⟩ := x.places_exact
  obtain ⟨y, hy, hdigits, hsign, -⟩ := hset 64 false hlow
  obtain ⟨herror, -, hkept⟩ := hrefused (2 ^ 31) true hhigh
  have hcleared : x.setBit 64 false = .ok 0 := by decide
  exact ⟨⟨hx, (hshift 70).2.1 hx, by decide⟩,
    ⟨hlow, y, hy, hdigits, hsign, Except.ok.inj (hy.symm.trans hcleared)⟩,
    hhigh, herror, hkept _ 0 rfl⟩

end Integer
end Signet
