import Mathlib
import Signet.Proofs.Integer.Numerals

/-! Division by a small number, word by word from the top. What is left over so far stands above the
next word in a register of two words, and the quotient of the two is written back in place of the
word. Here the division is watched as it goes: a strict one breaks off at a double word that its
register does not hold, and at a quotient that takes more than a word. It never does, and it agrees
with the long division digit by digit. Main statements: `divideInto?_eq`, `restInto?_eq` and
`short_division_exact`. -/
namespace Signet

namespace Magnitude

/-- A number in a register of so many binary digits, where there is room for it. -/
def held? (digits n : ℕ) : Option ℕ := if n < 2 ^ digits then some n else none

/-- What is left over above the next word. -/
def doubleWord (left : ℕ) (low : UInt64) : ℕ := (left <<< 64) ||| low.toNat

/-- The division in place, where every double word and every quotient has to be in range. -/
def divideInto? (d : ℕ) : Magnitude → Option (Magnitude × ℕ)
  | zero => some (zero, 0)
  | word low high => do
    let (quotient, left) ← divideInto? d high
    let current ← held? 128 (doubleWord left low)
    let digit ← held? 64 (current / d)
    return (word (UInt64.ofNat digit) quotient, current % d)

/-- What is left over alone, where every double word has to be in range. -/
def restInto? (d : ℕ) : Magnitude → Option ℕ
  | zero => some 0
  | word low high => do
    let left ← restInto? d high
    let current ← held? 128 (doubleWord left low)
    return current % d

section Words

variable {d left : ℕ}

theorem held?_of_lt {digits n : ℕ} (h : n < 2 ^ digits) : held? digits n = some n := if_pos h

/-- The two words of a double word do not overlap. -/
theorem doubleWord_eq (left : ℕ) (low : UInt64) :
    doubleWord left low = left * 2 ^ 64 + low.toNat := by
  rw [doubleWord, ← Nat.shiftLeft_add_eq_or_of_lt low.toNat_lt, Nat.shiftLeft_eq]

theorem doubleWord_lt (low : UInt64) (hleft : left < 2 ^ 64) : doubleWord left low < 2 ^ 128 := by
  have hlow := low.toNat_lt
  rw [doubleWord_eq]
  omega

theorem doubleWord_div_lt (low : UInt64) (hleft : left < d) : doubleWord left low / d < 2 ^ 64 := by
  rw [doubleWord_eq]
  exact quotient_word_lt left d low hleft

theorem rest_divideInto_lt (hpos : 0 < d) (m : Magnitude) : (divideInto d m).2 < d := by
  cases m with
  | zero => exact hpos
  | word low high => exact Nat.mod_lt _ hpos

theorem wordCount_divideInto (d : ℕ) (m : Magnitude) :
    (divideInto d m).1.wordCount = m.wordCount := by
  induction m with
  | zero => rfl
  | word low high ih => simp [divideInto, wordCount, ih]

/-- Nothing leaves its range, as what is left over stays below the divisor. -/
theorem divideInto?_eq (hpos : 0 < d) (hd : d ≤ 2 ^ 64) (m : Magnitude) :
    divideInto? d m = some (divideInto d m) := by
  induction m with
  | zero => rfl
  | word low high ih =>
    have hleft := rest_divideInto_lt hpos high
    rw [divideInto?, ih]
    simp only [Option.bind_eq_bind, Option.bind_some]
    rw [held?_of_lt (doubleWord_lt low (hleft.trans_le hd)), Option.bind_some,
      held?_of_lt (doubleWord_div_lt low hleft), Option.bind_some, doubleWord_eq]
    rfl

theorem rest_divideInto (hpos : 0 < d) (m : Magnitude) : (divideInto d m).2 = m.modSmall d := by
  rw [modSmall_eq]
  exact (toNat_trim_divideInto hpos m).2

theorem restInto?_eq (hpos : 0 < d) (hd : d ≤ 2 ^ 64) (m : Magnitude) :
    restInto? d m = some (m.modSmall d) := by
  induction m with
  | zero => rfl
  | word low high ih =>
    have hleft : high.modSmall d < d := by
      rw [modSmall_eq]
      exact Nat.mod_lt _ hpos
    rw [restInto?, ih]
    simp only [Option.bind_eq_bind, Option.bind_some]
    rw [held?_of_lt (doubleWord_lt low (hleft.trans_le hd)), Option.bind_some, doubleWord_eq]
    rfl

end Words

/-- A small divisor as the long division takes it. -/
theorem toNat_ofWord_ofNat {d : ℕ} (hd : d < 2 ^ 32) : (ofWord (UInt64.ofNat d)).toNat = d := by
  rw [toNat_ofWord, toNat_ofNat_mod, Nat.mod_eq_of_lt (hd.trans (by norm_num))]

section Long

variable {d : ℕ} (hpos : 0 < d) (hd : d < 2 ^ 32) (m : Magnitude)
include hpos hd

/-- The words that are left of the quotient are those of the long division. -/
theorem trim_divideInto_eq_divMod :
    (divideInto d m).1.trim = (m.divMod (ofWord (UInt64.ofNat d))).1.trim := by
  have hdivisor := toNat_ofWord_ofNat hd
  apply Normal.eq_of_toNat_eq (normal_trim _) (normal_trim _)
  rw [(toNat_trim_divideInto hpos m).1, toNat_trim,
    (toNat_divMod m _ (by rw [hdivisor]; exact hpos.ne')).1, hdivisor]

theorem modSmall_eq_divMod : m.modSmall d = (m.divMod (ofWord (UInt64.ofNat d))).2.toNat := by
  have hdivisor := toNat_ofWord_ofNat hd
  rw [modSmall_eq, (toNat_divMod m _ (by rw [hdivisor]; exact hpos.ne')).2, hdivisor]

end Long

end Magnitude

namespace Integer

open Magnitude (divideInto divideInto? restInto? ofWord)

theorem toInt_ofUInt64_ofNat {d : ℕ} (hd : d < 2 ^ 32) :
    (ofUInt64 (UInt64.ofNat d)).toInt = d := by
  rw [toInt_ofUInt64, ← Magnitude.toNat_ofWord, Magnitude.toNat_ofWord_ofNat hd]

section Long

variable {d : ℕ} (hpos : 0 < d) (hd : d < 2 ^ 32) (x : Integer)
include hpos hd

/-- The two parts of the division of an absolute value by a small divisor. -/
theorem toInt_divMod_abs :
    (divMod x.abs (ofUInt64 (UInt64.ofNat d))).1.toInt = (x.magnitude.toNat / d : ℕ) ∧
      (divMod x.abs (ofUInt64 (UInt64.ofNat d))).2.toInt = (x.magnitude.toNat % d : ℕ) := by
  have hdivisor := toInt_ofUInt64_ofNat hd
  have hdpos : 0 < (ofUInt64 (UInt64.ofNat d)).toInt := by
    rw [hdivisor]
    exact_mod_cast hpos
  have hquotient := toInt_div x.abs _ hdpos
  have hrest := toInt_mod x.abs _ hdpos
  rw [hdivisor, toInt_abs, ← toNat_magnitude] at hquotient hrest
  exact ⟨hquotient.trans (by norm_cast), hrest.trans (by norm_cast)⟩

theorem divModSmall_fst_eq :
    (x.magnitude.divModSmall d).1 = (divMod x.abs (ofUInt64 (UInt64.ofNat d))).1.magnitude := by
  apply Magnitude.Normal.eq_of_toNat_eq
  · rw [← Magnitude.trim_divideInto]
    exact Magnitude.normal_trim _
  · exact (divMod x.abs _).1.normal
  · rw [toNat_magnitude, (toInt_divMod_abs hpos hd x).1, Int.natAbs_natCast,
      (Magnitude.toNat_divModSmall _ d hpos).1]

end Long

/-- Division by a small number is exact and agrees with the long division. On any words, nothing
leaves its range on the way down; the words that are left of the quotient, and what is left over,
are those of the long division. On the words of an integer they are the two parts of the division of
its absolute value. -/
theorem short_division_exact {d : ℕ} (hpos : 0 < d) (hd : d < 2 ^ 32) :
    (∀ m : Magnitude, ∃ row rest,
      divideInto? d m = some (row, rest) ∧ restInto? d m = some rest ∧ rest < 2 ^ 32 ∧
      m.divModSmall d = (row.trim, rest) ∧ m.modSmall d = rest ∧
      row.wordCount = m.wordCount ∧
      row.trim = (m.divMod (ofWord (UInt64.ofNat d))).1.trim ∧
      rest = (m.divMod (ofWord (UInt64.ofNat d))).2.toNat) ∧
    ∀ x : Integer,
      (x.magnitude.divModSmall d).1 = (divMod x.abs (ofUInt64 (UInt64.ofNat d))).1.magnitude ∧
      (x.magnitude.divModSmall d).2 = (divMod x.abs (ofUInt64 (UInt64.ofNat d))).2.toInt ∧
      x.magnitude.modSmall d = (divMod x.abs (ofUInt64 (UInt64.ofNat d))).2.toInt := by
  have hwide : d ≤ 2 ^ 64 := hd.le.trans (by norm_num)
  refine ⟨fun m => ?_, fun x => ⟨divModSmall_fst_eq hpos hd x, ?_, ?_⟩⟩
  · have hrest := Magnitude.rest_divideInto hpos m
    refine ⟨(divideInto d m).1, (divideInto d m).2, Magnitude.divideInto?_eq hpos hwide m, ?_, ?_,
      (Magnitude.trim_divideInto d m).symm, hrest.symm, Magnitude.wordCount_divideInto d m,
      Magnitude.trim_divideInto_eq_divMod hpos hd m, ?_⟩
    · rw [hrest]
      exact Magnitude.restInto?_eq hpos hwide m
    · exact (Magnitude.rest_divideInto_lt hpos m).trans hd
    · rw [hrest]
      exact Magnitude.modSmall_eq_divMod hpos hd m
  · rw [(toInt_divMod_abs hpos hd x).2, (Magnitude.toNat_divModSmall _ d hpos).2]
  · rw [(toInt_divMod_abs hpos hd x).2, Magnitude.modSmall_eq]

/-- A negative number of two words by 65537, to which the second word counts as one. -/
theorem short_division_exact_sample :
    let x := ofMagnitude true (.word 5 (.word 7 .zero))
    0 < 65537 ∧ 65537 < 2 ^ 32 ∧
      (∃ row, divideInto? 65537 x.magnitude = some (row, 12)) ∧ restInto? 65537 x.magnitude = some 12 ∧
      (x.magnitude.divModSmall 65537).1 = (divMod x.abs (ofUInt64 65537)).1.magnitude ∧
      (divMod x.abs (ofUInt64 65537)).2.toInt = 12 := by
  intro x
  obtain ⟨hwords, hintegers⟩ := short_division_exact (d := 65537) (by decide) (by decide)
  obtain ⟨row, rest, hrow, hrest, -, -, hsmall, -⟩ := hwords x.magnitude
  obtain ⟨hquotient, -, hleft⟩ := hintegers x
  obtain rfl : rest = 12 := hsmall.symm.trans (by decide)
  exact ⟨by decide, by decide, ⟨row, hrow⟩, hrest, hquotient, hleft.symm.trans (by decide)⟩

end Integer
end Signet
