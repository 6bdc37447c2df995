import Mathlib
import Signet.Timestamp

/-! Days added to a time. The seconds and the fraction are the upper and the lower half of one word
of 128 digits, whose number in two's complement is the time in units of `2 ^ -64` of a second. Days
are turned into seconds first and then added, both in 64 digits, and neither step has a result where
it would leave them. So a number of days is refused where its seconds alone are out of range, even if
the sum would be back in it. Main statements: `addDays?_eq_some_iff`, `fixed_addDays?`, `days_exact`
and `days_refused_in_range`. -/
namespace Signet.Timestamp

section Seconds

/-- The numbers of seconds that a time can have. -/
def InRange (n : ℤ) : Prop := -2 ^ 63 ≤ n ∧ n < 2 ^ 63

instance (n : ℤ) : Decidable (InRange n) := inferInstanceAs (Decidable (_ ∧ _))

theorem inRange_toInt (s : Int64) : InRange s.toInt := ⟨s.le_toInt, s.toInt_lt⟩

theorem fit?_of_inRange {n : ℤ} (h : InRange n) : fit? n = some (Int64.ofInt n) := if_pos h

theorem fit?_of_not_inRange {n : ℤ} (h : ¬ InRange n) : fit? n = none := if_neg h

theorem fit?_eq_none_iff {n : ℤ} : fit? n = none ↔ ¬ InRange n := by
  constructor
  · intro h hrange
    rw [fit?_of_inRange hrange] at h
    cases h
  · exact fit?_of_not_inRange

theorem fit?_eq_some_iff {n : ℤ} {s : Int64} : fit? n = some s ↔ s.toInt = n := by
  constructor
  · intro h
    by_cases hrange : InRange n
    · rw [fit?_of_inRange hrange] at h
      obtain rfl := Option.some.inj h
      exact Int64.toInt_ofInt_of_le hrange.1 hrange.2
    · rw [fit?_of_not_inRange hrange] at h
      cases h
  · rintro rfl
    rw [fit?_of_inRange (inRange_toInt s), Int64.ofInt_toInt]

variable {t u : Timestamp} {n : Int64}

theorem addSecs?_eq_some_iff :
    t.addSecs? n = some u ↔ u.secs.toInt = t.secs.toInt + n.toInt ∧ u.fraction = t.fraction := by
  rw [addSecs?, Option.map_eq_some_iff]
  constructor
  · rintro ⟨s, hs, rfl⟩
    exact ⟨fit?_eq_some_iff.mp hs, rfl⟩
  · rintro ⟨hsecs, hfraction⟩
    refine ⟨u.secs, fit?_eq_some_iff.mpr hsecs, ?_⟩
    rw [← hfraction]

theorem addSecs?_eq_none_iff : t.addSecs? n = none ↔ ¬ InRange (t.secs.toInt + n.toInt) := by
  rw [addSecs?, Option.map_eq_none_iff, fit?_eq_none_iff]

theorem addDays?_eq_some_iff :
    t.addDays? n = some u ↔ InRange (86400 * n.toInt) ∧
      u.secs.toInt = t.secs.toInt + 86400 * n.toInt ∧ u.fraction = t.fraction := by
  rw [addDays?, secondsPerDay, mul_comm, Option.bind_eq_some_iff]
  constructor
  · rintro ⟨s, hs, hu⟩
    rw [fit?_eq_some_iff] at hs
    rw [addSecs?_eq_some_iff, hs] at hu
    exact ⟨hs ▸ inRange_toInt s, hu⟩
  · rintro ⟨hrange, hu⟩
    have hfit := fit?_of_inRange hrange
    refine ⟨Int64.ofInt (86400 * n.toInt), hfit, ?_⟩
    rw [addSecs?_eq_some_iff, fit?_eq_some_iff.mp hfit]
    exact hu

/-- The seconds of the days have to be in range before they are added. -/
theorem addDays?_eq_none_iff :
    t.addDays? n = none ↔
      ¬ (InRange (86400 * n.toInt) ∧ InRange (t.secs.toInt + 86400 * n.toInt)) := by
  rw [addDays?, secondsPerDay, mul_comm]
  by_cases hrange : InRange (86400 * n.toInt)
  · have hfit := fit?_of_inRange hrange
    rw [hfit, Option.bind_some, addSecs?_eq_none_iff, fit?_eq_some_iff.mp hfit,
      and_iff_right hrange]
  · rw [fit?_of_not_inRange hrange]
    exact iff_of_true rfl fun h => hrange h.1

end Seconds

section Raw

variable {t u : Timestamp}

theorem raw_eq (t : Timestamp) : t.raw = t.secs.toInt * 2 ^ 64 + t.fraction.toNat := rfl

/-- The seconds are the time rounded toward the past. -/
theorem raw_div (t : Timestamp) : t.raw / 2 ^ 64 = t.secs.toInt := by
  have hfraction := t.fraction.toNat_lt
  rw [raw_eq]
  omega

theorem raw_mod (t : Timestamp) : t.raw % 2 ^ 64 = t.fraction.toNat := by
  have hfraction := t.fraction.toNat_lt
  rw [raw_eq]
  omega

/-- Times that lie whole seconds apart have the same fraction. -/
theorem raw_eq_add_iff {seconds : ℤ} :
    u.raw = t.raw + seconds * 2 ^ 64 ↔
      u.secs.toInt = t.secs.toInt + seconds ∧ u.fraction = t.fraction := by
  have ht := t.fraction.toNat_lt
  have hu := u.fraction.toNat_lt
  rw [raw_eq, raw_eq, ← UInt64.toNat_inj]
  omega

end Raw

section Checked

/-- A result in 64 digits, unless it overflowed them. -/
def unlessOverflow (overflowed : Bool) (result : Int64) : Option Int64 :=
  if overflowed then none else some result

def checkedAdd (a b : Int64) : Option Int64 :=
  unlessOverflow (a.toBitVec.saddOverflow b.toBitVec) (a + b)

def checkedMul (a b : Int64) : Option Int64 :=
  unlessOverflow (a.toBitVec.smulOverflow b.toBitVec) (a * b)

/-- The overflow that the registers report is that of the exact number. -/
theorem overflow_iff {n : ℤ} :
    (decide (n ≥ 2 ^ (64 - 1)) || decide (n < -2 ^ (64 - 1))) = true ↔ ¬ InRange n := by
  rw [Bool.or_eq_true, decide_eq_true_iff, decide_eq_true_iff, InRange]
  omega

theorem unlessOverflow_eq_fit? {overflowed : Bool} {result : Int64} {n : ℤ}
    (hflag : overflowed = true ↔ ¬ InRange n) (hresult : ¬ overflowed = true → result.toInt = n) :
    unlessOverflow overflowed result = fit? n := by
  rw [unlessOverflow]
  split
  · next h => exact (fit?_of_not_inRange (hflag.mp h)).symm
  · next h => exact (fit?_eq_some_iff.mpr (hresult h)).symm

variable (a b : Int64)

theorem checkedAdd_eq : checkedAdd a b = fit? (a.toInt + b.toInt) :=
  unlessOverflow_eq_fit? overflow_iff BitVec.toInt_add_of_not_saddOverflow

theorem checkedMul_eq : checkedMul a b = fit? (a.toInt * b.toInt) :=
  unlessOverflow_eq_fit? overflow_iff BitVec.toInt_mul_of_not_smulOverflow

end Checked

/-- A time as one word, whose number in two's complement counts units of `2 ^ -64` of a second. -/
structure FixedPoint where
  digits : BitVec 128
deriving DecidableEq

namespace FixedPoint

variable (w : FixedPoint)

def raw : ℤ := w.digits.toInt

/-- The upper half, by a shift that brings in the sign. -/
def secs : Int64 := .ofBitVec ((w.digits.sshiftRight 64).setWidth 64)

def fraction : UInt64 := .ofBitVec (w.digits.setWidth 64)

def ofParts (secs : Int64) (fraction : UInt64) : FixedPoint :=
  ⟨secs.toBitVec.signExtend 128 <<< 64 ||| fraction.toBitVec.setWidth 128⟩

def addSecs? (n : Int64) : Option FixedPoint :=
  (checkedAdd w.secs n).map fun secs => ofParts secs w.fraction

def addDays? (n : Int64) : Option FixedPoint := (checkedMul n 86400).bind w.addSecs?

theorem raw_inj {w v : FixedPoint} : w.raw = v.raw ↔ w = v := by
  cases w
  cases v
  rw [mk.injEq]
  exact BitVec.toInt_inj

/-- The shift is a division that rounds toward the past. -/
theorem toInt_secs : w.secs.toInt = w.raw / 2 ^ 64 := by
  have hlow : -2 ^ 127 ≤ w.raw := BitVec.le_toInt w.digits
  have hhigh : w.raw < 2 ^ 127 := BitVec.toInt_lt
  have hshift : (w.digits.sshiftRight 64).toInt = w.raw / 2 ^ 64 := by
    rw [BitVec.toInt_sshiftRight, Int.shiftRight_eq_div_pow]
    rfl
  rw [secs, Int64.toInt_ofBitVec, ← BitVec.signExtend_eq_setWidth_of_le _ (by norm_num),
    BitVec.toInt_signExtend_eq_toInt_bmod_of_le _ (by norm_num), hshift]
  -- what the shift leaves is in the range of 64 digits, so that the cut takes nothing off
  exact Int.bmod_eq_of_le_mul_two (by omega) (by omega)

theorem toNat_fraction : (w.fraction.toNat : ℤ) = w.raw % 2 ^ 64 := by
  have hfraction : w.fraction.toNat = w.digits.toNat % 2 ^ 64 := BitVec.toNat_setWidth 64 w.digits
  rw [hfraction, raw, BitVec.toInt_eq_toNat_cond]
  -- the number with its sign is less by a multiple of `2 ^ 64`, if it differs
  split
  · omega
  · omega

section Halves

variable (s : Int64) (f : UInt64)

theorem toInt_upper : (s.toBitVec.signExtend 128 <<< 64).toInt = s.toInt * 2 ^ 64 := by
  have hlow := s.le_toInt
  have hhigh := s.toInt_lt
  have hplace : (BitVec.twoPow 128 64).toInt = 2 ^ 64 := by decide
  rw [BitVec.shiftLeft_eq_mul_twoPow, BitVec.toInt_mul, BitVec.toInt_signExtend_of_le (by norm_num),
    Int64.toInt_toBitVec, hplace]
  exact Int.bmod_eq_of_le_mul_two (by omega) (by omega)

theorem toInt_lower : (f.toBitVec.setWidth 128).toInt = f.toNat := by
  have hf := f.toNat_lt
  rw [BitVec.toInt_setWidth]
  exact Int.bmod_eq_of_le_mul_two (by omega) (by omega)

/-- The halves have no digit in common. -/
theorem halves_disjoint : s.toBitVec.signExtend 128 <<< 64 &&& f.toBitVec.setWidth 128 = 0 := by
  ext place hplace
  rw [BitVec.getElem_and, BitVec.getElem_shiftLeft, BitVec.getElem_setWidth]
  by_cases hlower : place < 64
  · simp [hlower]
  · simp [hlower, BitVec.getLsbD_of_ge f.toBitVec place (not_lt.mp hlower)]

theorem raw_ofParts : (ofParts s f).raw = s.toInt * 2 ^ 64 + f.toNat := by
  have hlow := s.le_toInt
  have hhigh := s.toInt_lt
  have hf := f.toNat_lt
  -- without a common digit the halves are joined by a sum, which stays in range
  rw [raw, ofParts, ← BitVec.add_eq_or_of_and_eq_zero _ _ (halves_disjoint s f), BitVec.toInt_add,
    toInt_upper, toInt_lower]
  exact Int.bmod_eq_of_le_mul_two (by omega) (by omega)

end Halves

end FixedPoint

/-- The word of a time. Every word is that of one time. -/
def fixed : Timestamp ≃ FixedPoint where
  toFun t := .ofParts t.secs t.fraction
  invFun w := ⟨w.secs, w.fraction⟩
  left_inv t := by
    have hraw : (FixedPoint.ofParts t.secs t.fraction).raw = t.raw :=
      FixedPoint.raw_ofParts t.secs t.fraction
    rw [mk.injEq, ← Int64.toInt_inj, ← UInt64.toNat_inj, ← Int.natCast_inj, FixedPoint.toInt_secs,
      FixedPoint.toNat_fraction, hraw]
    exact ⟨raw_div t, raw_mod t⟩
  right_inv w := by
    apply FixedPoint.raw_inj.mp
    rw [FixedPoint.raw_ofParts, FixedPoint.toInt_secs, FixedPoint.toNat_fraction]
    exact Int.ediv_mul_add_emod w.raw (2 ^ 64)

section Fixed

variable (t : Timestamp) (n : Int64)

theorem raw_fixed : (fixed t).raw = t.raw := FixedPoint.raw_ofParts t.secs t.fraction

theorem secs_fixed : (fixed t).secs = t.secs := congrArg secs (fixed.symm_apply_apply t)

theorem fraction_fixed : (fixed t).fraction = t.fraction :=
  congrArg fraction (fixed.symm_apply_apply t)

theorem fixed_addSecs? : (fixed t).addSecs? n = (t.addSecs? n).map fixed := by
  rw [FixedPoint.addSecs?, addSecs?, checkedAdd_eq, secs_fixed, fraction_fixed, Option.map_map]
  rfl

/-- Days are added to the word as they are to the time. -/
theorem fixed_addDays? : (fixed t).addDays? n = (t.addDays? n).map fixed := by
  rw [FixedPoint.addDays?, addDays?, checkedMul_eq, Option.map_bind]
  congr 1
  funext seconds
  exact fixed_addSecs? t seconds

end Fixed

/-- Days are added exactly. There is a sum where the seconds of the days are in range, and those of
the time with them too; it lies by just as many seconds from the time, and has its fraction. Where
the one or the other is out of range, there is none. On the words of 128 digits it is the same, with
the registers' own overflow. -/
theorem days_exact (t : Timestamp) (n : Int64) :
    ((∃ u, t.addDays? n = some u) ↔
      InRange (86400 * n.toInt) ∧ InRange (t.secs.toInt + 86400 * n.toInt)) ∧
    (∀ u, t.addDays? n = some u →
      u.raw = t.raw + 86400 * n.toInt * 2 ^ 64 ∧ u.fraction = t.fraction) ∧
    (t.addDays? n = none ↔
      ¬ InRange (86400 * n.toInt) ∨ ¬ InRange (t.secs.toInt + 86400 * n.toInt)) ∧
    (fixed t).raw = t.raw ∧ (fixed t).secs.toInt = t.raw / 2 ^ 64 ∧
    (fixed t).fraction = t.fraction ∧ (fixed t).addDays? n = (t.addDays? n).map fixed := by
  have hnone := addDays?_eq_none_iff (t := t) (n := n)
  refine ⟨?_, fun u hu => ?_, hnone.trans not_and_or, raw_fixed t, ?_, fraction_fixed t,
    fixed_addDays? t n⟩
  · rw [← Option.ne_none_iff_exists', Ne, hnone, not_not]
  · obtain ⟨-, hparts⟩ := addDays?_eq_some_iff.mp hu
    exact ⟨raw_eq_add_iff.mpr hparts, hparts.2⟩
  · rw [secs_fixed, raw_div]

/-- One and a half seconds before the start of 2000, and as many days back as can be taken. -/
theorem days_exact_sample :
    let t : Timestamp := ⟨-2, 9223372036854775808⟩
    let u : Timestamp := ⟨-9223372036854720002, 9223372036854775808⟩
    t.addDays? (-106751991167300) = some u ∧
      u.raw = t.raw + 86400 * Int64.toInt (-106751991167300) * 2 ^ 64 ∧
      u.fraction = t.fraction := by
  intro t u
  have hsum : t.addDays? (-106751991167300) = some u := by decide
  obtain ⟨-, hexact, -⟩ := days_exact t (-106751991167300)
  exact ⟨hsum, hexact u hsum⟩

/-- A number of days is refused although the sum is in range: from the earliest second, so many days
that their seconds are out of range would only lead to the first day of 2000. -/
theorem days_refused_in_range :
    let t : Timestamp := ⟨Int64.minValue, 0⟩
    let n : Int64 := 106751991167301
    t.secs.toInt + 86400 * n.toInt = 30592 ∧ InRange (t.secs.toInt + 86400 * n.toInt) ∧
      ¬ InRange (86400 * n.toInt) ∧ t.addDays? n = none := by
  decide

end Signet.Timestamp
