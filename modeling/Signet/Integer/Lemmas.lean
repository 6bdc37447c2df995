import Signet.Integer.Arithmetic
import Signet.Magnitude.Lemmas
/-!
What the operations on integers do to the numbers that they stand for. Main statements: `toInt_inj`,
`compare_eq`, `toInt_add`, `toInt_sub`, `toInt_mul`, `toInt_divMod`, and `toInt_mod` for the positive
moduli that keys have.
-/
namespace Signet.Integer

open scoped Powers

/-- The number of an integer that is put together from a sign and words. -/
theorem toInt_ofMagnitude (negative : Bool) (m : Magnitude) :
    (ofMagnitude negative m).toInt = if negative then -(m.toNat : Int) else m.toNat := by
  have ht := m.toNat_trim
  have hz := m.normal_trim.eq_zero_iff
  by_cases h : m.trim = .zero
  · have hm : m.toNat = 0 := by rw [← ht]; exact hz.mp h
    simp [toInt, ofMagnitude, h, hm, Magnitude.toNat]
  · cases negative <;> simp [toInt, ofMagnitude, h, ht]

theorem toNat_magnitude (x : Integer) : x.magnitude.toNat = x.toInt.natAbs := by
  unfold toInt
  split <;> omega

theorem negative_iff (x : Integer) : x.negative = true ↔ x.toInt < 0 := by
  have hz := x.normal.eq_zero_iff
  unfold toInt
  by_cases h : x.negative = true
  · have hm : x.magnitude.toNat ≠ 0 := by
      intro hm
      have := x.zero_unsigned (hz.mpr hm)
      simp [this] at h
    simp only [h, if_true, true_iff]
    omega
  · simp only [h, if_false, Bool.false_eq_true, false_iff]
    omega

/-- Two integers are the same data exactly when they are the same number. -/
theorem toInt_inj {x y : Integer} : x.toInt = y.toInt ↔ x = y := by
  constructor
  · intro h
    have hm : x.magnitude = y.magnitude :=
      x.normal.eq_of_toNat_eq y.normal (by rw [toNat_magnitude, toNat_magnitude, h])
    have hs : x.negative = y.negative := by
      rw [Bool.eq_iff_iff, negative_iff, negative_iff, h]
    cases x
    cases y
    simp_all
  · intro h
    rw [h]

theorem toInt_zero : (0 : Integer).toInt = 0 := rfl

theorem toInt_one : (1 : Integer).toInt = 1 := rfl

theorem isZero_iff (x : Integer) : x.isZero = true ↔ x.toInt = 0 := by
  rw [isZero, beq_iff_eq, ← toInt_inj, toInt_zero]

theorem isOne_iff (x : Integer) : x.isOne = true ↔ x.toInt = 1 := by
  rw [isOne, beq_iff_eq, ← toInt_inj, toInt_one]

theorem compare_eq (a b : Integer) : a.compare b = Ord.compare a.toInt b.toInt := by
  have ha := negative_iff a
  have hb := negative_iff b
  have hma := toNat_magnitude a
  have hmb := toNat_magnitude b
  unfold compare
  simp only [Magnitude.compare_eq, hma, hmb, Ord.compare, compareOfLessAndEq]
  cases hsa : a.negative <;> cases hsb : b.negative <;>
    simp only [hsa, hsb, true_iff, false_iff, Bool.false_eq_true, Int.not_lt] at ha hb <;>
    grind

theorem toInt_neg (x : Integer) : (-x).toInt = -x.toInt := by
  change (ofMagnitude (!x.negative) x.magnitude).toInt = _
  rw [toInt_ofMagnitude, toInt]
  cases x.negative <;> simp

theorem toInt_abs (x : Integer) : x.abs.toInt = x.toInt.natAbs := by
  rw [abs, toInt_ofMagnitude, toNat_magnitude]
  simp

/-- A sum of two signed sizes is the sum of the two numbers. -/
theorem toInt_addSigned (s : Bool) (a : Magnitude) (t : Bool) (b : Magnitude) :
    (addSigned s a t b).toInt =
      (if s then -(a.toNat : Int) else a.toNat) + (if t then -(b.toNat : Int) else b.toNat) := by
  have hc := Magnitude.compare_eq a b
  rw [addSigned]
  split
  · next h =>
    obtain rfl := beq_iff_eq.mp h
    rw [toInt_ofMagnitude, Magnitude.toNat_add]
    cases s with
    | false => exact Int.natCast_add ..
    | true =>
      change -((a.toNat + b.toNat : Nat) : Int) = -a.toNat + -b.toNat
      omega
  · next h =>
    have hst : t = !s := by cases s <;> cases t <;> simp_all
    subst hst
    split
    · next hcmp =>
      have h : b.toNat < a.toNat := Nat.compare_eq_gt.mp (hc.symm.trans hcmp)
      rw [toInt_ofMagnitude, Magnitude.toNat_sub a b (Nat.le_of_lt h)]
      cases s <;> simp <;> omega
    · next hcmp =>
      have h : a.toNat < b.toNat := Nat.compare_eq_lt.mp (hc.symm.trans hcmp)
      rw [toInt_ofMagnitude, Magnitude.toNat_sub b a (Nat.le_of_lt h)]
      cases s <;> simp <;> omega
    · next hcmp =>
      have h : a.toNat = b.toNat := Nat.compare_eq_eq.mp (hc.symm.trans hcmp)
      rw [toInt_zero]
      cases s <;> simp <;> omega

theorem toInt_add (a b : Integer) : (a + b).toInt = a.toInt + b.toInt := by
  change (addSigned _ _ _ _).toInt = _
  rw [toInt_addSigned, ← toInt, ← toInt]

theorem toInt_sub (a b : Integer) : (a - b).toInt = a.toInt - b.toInt := by
  change (addSigned _ _ _ _).toInt = _
  rw [toInt_addSigned, ← toInt, toInt, toInt]
  cases a.negative <;> cases b.negative <;> simp <;> omega

theorem toInt_mul (a b : Integer) : (a * b).toInt = a.toInt * b.toInt := by
  change (ofMagnitude _ _).toInt = _
  rw [toInt_ofMagnitude, Magnitude.toNat_mul, Int.natCast_mul, toInt, toInt]
  cases a.negative with
  | false =>
    cases b.negative with
    | false => rfl
    | true => exact (Int.mul_neg ..).symm
  | true =>
    cases b.negative with
    | false => exact (Int.neg_mul ..).symm
    | true => exact (Int.neg_mul_neg ..).symm

theorem floor_of_size {a b q r : Nat} (hsplit : b * q + r = a) (hlt : r < b) :
    (a : Int).fdiv b = q ∧ (a : Int).fmod b = r := by
  have hcast : (b : Int) * q + r = a := by exact_mod_cast hsplit
  rw [Int.fdiv_fmod_unique (by omega)]
  omega

/-- Below zero the quotient goes down by one, and the remainder up by the divisor, when something is
left over. -/
theorem floor_of_neg_size {a b q r : Nat} (hsplit : b * q + r = a) (hlt : r < b) :
    (-(a : Int)).fdiv b = (if decide (r ≠ 0) then -(q : Int) - 1 else -q) ∧
      (-(a : Int)).fmod b = if decide (r ≠ 0) then -(r : Int) + b else -r := by
  have hcast : (b : Int) * q + r = a := by exact_mod_cast hsplit
  rw [Int.fdiv_fmod_unique (by omega)]
  cases hrest : decide (r ≠ 0) with
  | false =>
    have hr := of_decide_eq_false hrest
    rw [if_neg Bool.false_ne_true, if_neg Bool.false_ne_true, Int.mul_neg]
    omega
  | true =>
    have hr := of_decide_eq_true hrest
    rw [if_pos rfl, if_pos rfl, Int.mul_sub, Int.mul_neg, Int.mul_one]
    omega

/-- Flooring of the division of two signed sizes: when the signs differ and something is left over,
the quotient goes down by one and the remainder up by the divisor. -/
theorem floor_of_sizes {a b q r : Nat} (s t : Bool) (hsplit : b * q + r = a) (hlt : r < b) :
    let x := if s then -(a : Int) else a
    let y := if t then -(b : Int) else b
    let x' := if s != t then -(q : Int) else q
    let y' := if s then -(r : Int) else r
    let down := s != t && decide (r ≠ 0)
    x.fdiv y = (if down then x' - 1 else x') ∧ x.fmod y = if down then y' + y else y' := by
  obtain ⟨hquotient, hremainder⟩ := floor_of_size hsplit hlt
  obtain ⟨hdown, hup⟩ := floor_of_neg_size hsplit hlt
  dsimp only
  cases s with
  | false =>
    cases t with
    | false => exact ⟨hquotient, hremainder⟩
    | true =>
      -- with both signs turned the divisor is positive
      have hq := Int.neg_fdiv_neg a (-b)
      have hr := Int.neg_fmod_neg a (-b)
      rw [Int.neg_neg] at hq hr
      refine ⟨hq.symm.trans hdown, Int.neg_inj.mp ((hr.symm.trans hup).trans ?_)⟩
      change _ = -(if decide (r ≠ 0) then (r : Int) + -b else r)
      split
      · omega
      · rfl
  | true =>
    cases t with
    | false => exact ⟨hdown, hup⟩
    | true =>
      change (-(a : Int)).fdiv (-b) = q ∧ (-(a : Int)).fmod (-b) = -r
      rw [Int.neg_fdiv_neg, Int.neg_fmod_neg, hquotient, hremainder]
      exact ⟨rfl, rfl⟩

/-- Division by a number other than zero rounds the quotient toward negative infinity. -/
theorem toInt_divMod (a b : Integer) (hb : b.toInt ≠ 0) :
    (divMod a b).1.toInt = a.toInt.fdiv b.toInt ∧ (divMod a b).2.toInt = a.toInt.fmod b.toInt := by
  obtain ⟨hq, hr⟩ := Magnitude.toNat_divMod a.magnitude b.magnitude (by
    rw [toNat_magnitude]; omega)
  have hlt := Nat.mod_lt a.magnitude.toNat (y := b.magnitude.toNat) (by
    rw [toNat_magnitude]; omega)
  have hsplit := Nat.div_add_mod a.magnitude.toNat b.magnitude.toNat
  rw [← hq, ← hr] at hsplit
  rw [← hr] at hlt
  have hfloor := floor_of_sizes a.negative b.negative hsplit hlt
  by_cases ha : a.isZero = true
  · rw [divMod, ha, Bool.true_or, if_pos rfl, (isZero_iff a).mp ha]
    simp [toInt_zero]
  have hbz : b.isZero = false := by
    rw [Bool.eq_false_iff, Ne, isZero_iff]
    exact hb
  rw [divMod, Bool.eq_false_iff.mpr ha, hbz, Bool.or_false, if_neg Bool.false_ne_true]
  generalize a.magnitude.divMod b.magnitude = split at hfloor ⊢
  have hrest : (!(ofMagnitude a.negative split.2).isZero) = decide (split.2.toNat ≠ 0) := by
    rw [Bool.eq_iff_iff, Bool.not_eq_true', Bool.eq_false_iff, Ne, isZero_iff, toInt_ofMagnitude]
    cases a.negative <;> simp
  dsimp only at hfloor ⊢
  rw [hrest]
  split
  · next h =>
    rw [if_pos h, if_pos h] at hfloor
    rw [toInt_sub, toInt_add, toInt_ofMagnitude, toInt_ofMagnitude, toInt_one]
    exact ⟨hfloor.1.symm, hfloor.2.symm⟩
  · next h =>
    rw [if_neg h, if_neg h] at hfloor
    rw [toInt_ofMagnitude, toInt_ofMagnitude]
    exact ⟨hfloor.1.symm, hfloor.2.symm⟩

theorem lt_iff {a b : Integer} : a < b ↔ a.toInt < b.toInt := by
  change a.compare b = .lt ↔ _
  rw [compare_eq, Int.compare_eq_lt]

theorem le_iff {a b : Integer} : a ≤ b ↔ a.toInt ≤ b.toInt := by
  change a.compare b ≠ .gt ↔ _
  rw [compare_eq, Ne, Int.compare_eq_gt, Int.not_lt]

theorem isNegative_iff (x : Integer) : x.isNegative = true ↔ x.toInt < 0 := negative_iff x

theorem toInt_ofUInt64 (w : UInt64) : (ofUInt64 w).toInt = w.toNat := by
  rw [ofUInt64, toInt_ofMagnitude, Magnitude.toNat_ofWord, if_neg Bool.false_ne_true]

theorem isOdd_iff (x : Integer) : x.isOdd = true ↔ x.toInt % 2 = 1 := by
  have h := toNat_magnitude x
  rw [isOdd, Magnitude.isOdd_iff]
  omega

/-- The number of binary digits is the least `k` with `|x| < 2 ^ k`. -/
theorem bits_le_iff (x : Integer) (k : Nat) : x.bits ≤ k ↔ x.toInt.natAbs < 2 ^ k := by
  rw [bits, ← Magnitude.lt_two_pow_iff, toNat_magnitude]

theorem two_le_bits_iff {x : Integer} (hx : 0 ≤ x.toInt) : 2 ≤ x.bits ↔ 1 < x.toInt := by
  have := bits_le_iff x 1
  omega

theorem toInt_mod (a b : Integer) (hb : 0 < b.toInt) : (a % b).toInt = a.toInt % b.toInt := by
  change (divMod a b).2.toInt = _
  rw [(toInt_divMod a b (Int.ne_of_gt hb)).2, Int.fmod_eq_emod_of_nonneg _ (Int.le_of_lt hb)]

theorem toInt_div (a b : Integer) (hb : 0 < b.toInt) : (a / b).toInt = a.toInt / b.toInt := by
  change (divMod a b).1.toInt = _
  rw [(toInt_divMod a b (Int.ne_of_gt hb)).1, Int.fdiv_eq_ediv_of_nonneg _ (Int.le_of_lt hb)]

theorem setBit_zero_false {x : Integer} (hpos : 0 < x.toInt) (hodd : x.toInt % 2 = 1) :
    x.setBit 0 false = .ok (x - 1) := by
  have hn : x.negative = false := Bool.eq_false_iff.mpr (mt (negative_iff x).mp (by omega))
  have hm := toNat_magnitude x
  rw [setBit, if_neg (by decide), if_neg Bool.false_ne_true]
  congr 1
  rw [← toInt_inj, toInt_ofMagnitude, hn, if_neg Bool.false_ne_true,
    Magnitude.toNat_clearBit_zero, toInt_sub, toInt_one]
  omega

/-- With its lowest digit an even number that is not negative is one more. -/
theorem setBit_zero_true {x : Integer} (hnonneg : 0 ≤ x.toInt) (heven : x.toInt % 2 = 0) :
    x.setBit 0 true = .ok (x + 1) := by
  have hn : x.negative = false := Bool.eq_false_iff.mpr (mt (negative_iff x).mp (by omega))
  have hm := toNat_magnitude x
  rw [setBit, if_neg (by decide), if_pos rfl]
  congr 1
  rw [← toInt_inj, toInt_ofMagnitude, hn, if_neg Bool.false_ne_true,
    Magnitude.toNat_setBit_zero, toInt_add, toInt_one]
  omega

end Signet.Integer
