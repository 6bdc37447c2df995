import Mathlib
import Signet.Proofs.Integer.Rows
import Signet.Proofs.Integer.Sum

/-! Division rounds to the floor. The long division under it is watched as it goes: a strict one
writes the quotient into a fixed row of words and breaks off at a difference that would borrow from
beyond the top, or at a digit without a place in the row. It never does. Main statement:
`division_floors`. -/
namespace Signet

namespace Magnitude

/-- Sets a binary digit in the words there are, which have to reach to its place. -/
def setWithin? : Magnitude → ℕ → Option Magnitude
  | zero, _ => none
  | word low high, place =>
    if place < 64 then some (word (low ||| (1 <<< UInt64.ofNat place)) high)
    else (setWithin? high (place - 64)).map (word low)

/-- The long division, where every difference and every digit of the quotient has to be in range. -/
def divideDown? : ℕ → Magnitude → Magnitude → Magnitude → Option (Magnitude × Magnitude)
  | 0, remainder, _, quotient => some (quotient, remainder)
  | place + 1, remainder, divisor, quotient =>
    if compare remainder divisor = .lt then
      divideDown? place remainder divisor.halve quotient
    else do
      let remainder ← remainder.sub? divisor
      let quotient ← quotient.setWithin? place
      divideDown? place remainder divisor.halve quotient

/-- Quotient, in as many words as the highest place asks for, and remainder. -/
def divMod? (a b : Magnitude) : Option (Magnitude × Magnitude) :=
  if compare a b = .lt then some (zero, a)
  else
    let shift := a.bits - b.bits
    divideDown? (shift + 1) a (b.shiftLeft shift) (zerosBelow (shift / 64 + 1) zero)

/-- A digit whose place lies in the words there are is set, and no word is added. -/
theorem exists_setWithin? {m : Magnitude} {place : ℕ} (h : place < 64 * m.wordCount) :
    ∃ n, m.setWithin? place = some n ∧ n.wordCount = m.wordCount ∧
      n.toNat = (m.setBit place).toNat := by
  induction m generalizing place with
  | zero => exact absurd h (Nat.not_lt_zero place)
  | word low high ih =>
    rw [setWithin?, setBit]
    by_cases hplace : place < 64
    · rw [if_pos hplace, if_pos hplace, toNat_push]
      exact ⟨_, rfl, rfl, rfl⟩
    · rw [wordCount] at h
      obtain ⟨n, hn, hcount, hvalue⟩ := ih (show place - 64 < 64 * high.wordCount by omega)
      rw [if_neg hplace, if_neg hplace, toNat_push, hn, ← hvalue]
      exact ⟨_, rfl, congrArg (· + 1) hcount, rfl⟩

/-- The long division keeps in range from any place on that the row of the quotient reaches. -/
theorem exists_divideDown? {places : ℕ} {r d row q : Magnitude}
    (hrow : places ≤ 64 * row.wordCount) (hq : row.toNat = q.toNat) :
    ∃ row', divideDown? places r d row = some (row', (divideDown places r d q).2) ∧
      row'.toNat = (divideDown places r d q).1.toNat := by
  -- the difference is taken only where the divisor fits, and the row reaches to every place
  induction places generalizing r d row q with
  | zero => exact ⟨row, rfl, hq⟩
  | succ place ih =>
    rw [divideDown?, divideDown, compare_eq]
    by_cases hlt : r.toNat < d.toNat
    · rw [if_pos (Nat.compare_eq_lt.mpr hlt), if_pos (Nat.compare_eq_lt.mpr hlt)]
      exact ih (by omega) hq
    · obtain ⟨next, hnext, hcount, hvalue⟩ := exists_setWithin? (Nat.lt_of_succ_le hrow)
      rw [if_neg (mt Nat.compare_eq_lt.mp hlt), if_neg (mt Nat.compare_eq_lt.mp hlt),
        sub?_eq_some (not_lt.mp hlt), hnext]
      refine ih (by rw [hcount]; omega) ?_
      rw [hvalue, toNat_setBit, toNat_setBit, hq]

theorem exists_divMod? (a b : Magnitude) :
    ∃ q, a.divMod? b = some (q, (a.divMod b).2) ∧ q.toNat = (a.divMod b).1.toNat := by
  rw [divMod?, divMod]
  split
  · exact ⟨zero, rfl, rfl⟩
  · refine exists_divideDown? ?_ ?_
    · rw [wordCount_zerosBelow]
      omega
    · rw [toNat_zerosBelow, toNat, Nat.zero_mul]

end Magnitude

namespace Integer

/-- A rest between zero and a divisor, which it does not reach. -/
def Between (r b : ℤ) : Prop := 0 ≤ r ∧ r < b ∨ r ≤ 0 ∧ b < r

section Between

variable {a b q r : ℤ}

theorem Between.abs_lt (h : Between r b) : |r| < |b| := by
  rcases h with ⟨hle, hlt⟩ | ⟨hle, hlt⟩
  · rwa [abs_of_nonneg hle, abs_of_pos (lt_of_le_of_lt hle hlt)]
  · rw [abs_of_nonpos hle, abs_of_neg (lt_of_lt_of_le hlt hle)]
    exact neg_lt_neg hlt

theorem Between.sign_eq (h : Between r b) : r = 0 ∨ r.sign = b.sign := by
  rcases h with ⟨hle, hlt⟩ | ⟨hle, hlt⟩
  · refine hle.eq_or_lt.imp Eq.symm fun hpos => ?_
    rw [Int.sign_eq_one_of_pos hpos, Int.sign_eq_one_of_pos (hpos.trans hlt)]
  · refine hle.eq_or_lt.imp id fun hneg => ?_
    rw [Int.sign_eq_neg_one_of_neg hneg, Int.sign_eq_neg_one_of_neg (hlt.trans hneg)]

/-- A multiple of a number and a rest between zero and that number make the multiple the floor of
the quotient. -/
theorem Between.floor_eq (h : Between r b) (hsum : a = q * b + r) : ⌊(a : ℚ) / b⌋ = q := by
  have hb : (b : ℚ) ≠ 0 := by
    have := h.abs_lt
    rw [Ne, Int.cast_eq_zero]
    rintro rfl
    exact absurd (abs_nonneg r) (not_le.mpr (by simpa using this))
  have hsplit : (a : ℚ) / b = q + (r : ℚ) / b := by
    rw [hsum]
    push_cast
    field_simp
  rw [hsplit, Int.floor_intCast_add, add_eq_left, Int.floor_eq_zero_iff, Set.mem_Ico]
  rcases h with ⟨hle, hlt⟩ | ⟨hle, hlt⟩
  · have hpos : (0 : ℚ) < b := by exact_mod_cast lt_of_le_of_lt hle hlt
    exact ⟨div_nonneg (by exact_mod_cast hle) hpos.le, (div_lt_one hpos).mpr (by exact_mod_cast hlt)⟩
  · have hneg : (b : ℚ) < 0 := by exact_mod_cast lt_of_lt_of_le hlt hle
    exact ⟨div_nonneg_of_nonpos (by exact_mod_cast hle) hneg.le,
      (div_lt_one_of_neg hneg).mpr (by exact_mod_cast hlt)⟩

theorem between_fmod (a : ℤ) (hb : b ≠ 0) :
    a = a.fdiv b * b + a.fmod b ∧ Between (a.fmod b) b := by
  rcases lt_or_gt_of_ne hb with hneg | hpos
  · obtain ⟨hsum, hlt, hle⟩ := (Int.fdiv_fmod_unique' hneg).mp ⟨rfl, rfl⟩
    exact ⟨by linarith, .inr ⟨hle, hlt⟩⟩
  · obtain ⟨hsum, hle, hlt⟩ := (Int.fdiv_fmod_unique hpos).mp ⟨rfl, rfl⟩
    exact ⟨by linarith, .inl ⟨hle, hlt⟩⟩

end Between

/-- Division rounds the quotient to the floor and leaves a remainder that is smaller than the
divisor and has its sign; with a zero on either side there is nothing to divide. The long division
under it is exact, and stays in range throughout. -/
theorem division_floors (a b : Integer) :
    (b ≠ 0 → a.toInt = (divMod a b).1.toInt * b.toInt + (divMod a b).2.toInt ∧
        |(divMod a b).2.toInt| < |b.toInt| ∧
        ((divMod a b).2.toInt = 0 ∨ (divMod a b).2.toInt.sign = b.toInt.sign) ∧
        (divMod a b).1.toInt = ⌊(a.toInt : ℚ) / b.toInt⌋) ∧
      (a = 0 ∨ b = 0 → divMod a b = (0, 0)) ∧
      a / b = (divMod a b).1 ∧ a % b = (divMod a b).2 ∧
      ∀ m n : Magnitude, n.toNat ≠ 0 → ∃ q r, m.divMod? n = some (q, r) ∧
        q.toNat = m.toNat / n.toNat ∧ r.toNat = m.toNat % n.toNat ∧
        (m.divMod n).1.toNat = q.toNat ∧ (m.divMod n).2 = r := by
  refine ⟨fun hb => ?_, fun hzero => ?_, rfl, rfl, fun m n hn => ?_⟩
  · have hb : b.toInt ≠ 0 := by rwa [Ne, ← toInt_zero, toInt_inj]
    obtain ⟨hq, hr⟩ := toInt_divMod a b hb
    obtain ⟨hsum, hbetween⟩ := between_fmod a.toInt hb
    rw [hq, hr, hbetween.floor_eq hsum]
    exact ⟨hsum, hbetween.abs_lt, hbetween.sign_eq, rfl⟩
  · rw [divMod, if_pos]
    rw [Bool.or_eq_true, isZero_iff, isZero_iff, ← toInt_zero, toInt_inj, toInt_inj]
    exact hzero
  · obtain ⟨hquotient, hremainder⟩ := Magnitude.toNat_divMod m n hn
    obtain ⟨q, hq, hvalue⟩ := m.exists_divMod? n
    exact ⟨q, _, hq, hvalue.trans hquotient, hremainder, hvalue.symm, rfl⟩

/-- Seven below zero by two, by zero, and the sizes of the two numbers. -/
theorem division_floors_sample :
    let a := ofInt64 (-7)
    let b := ofInt64 2
    (b ≠ 0 ∧ a.toInt = (divMod a b).1.toInt * b.toInt + (divMod a b).2.toInt ∧
        |(divMod a b).2.toInt| < |b.toInt| ∧
        ((divMod a b).2.toInt = 0 ∨ (divMod a b).2.toInt.sign = b.toInt.sign) ∧
        (divMod a b).1.toInt = ⌊(a.toInt : ℚ) / b.toInt⌋ ∧
        (divMod a b).1.toInt = -4 ∧ (divMod a b).2.toInt = 1) ∧
      divMod a 0 = (0, 0) ∧
      ∃ q r, a.magnitude.divMod? b.magnitude = some (q, r) ∧ q.toNat = 3 ∧ r.toNat = 1 := by
  intro a b
  have hb : b ≠ 0 := by decide
  obtain ⟨hsum, hlt, hsign, hfloor⟩ := (division_floors a b).1 hb
  obtain ⟨q, r, hdivMod, hq, hr, -⟩ :=
    (division_floors a b).2.2.2.2 a.magnitude b.magnitude (by decide)
  exact ⟨⟨hb, hsum, hlt, hsign, hfloor, by decide, by decide⟩,
    (division_floors a 0).2.1 (.inr rfl), q, r, hdivMod, hq.trans (by decide), hr.trans (by decide)⟩

end Integer
end Signet
