import Mathlib
import Signet.Integer.Lemmas
import Signet.Integer.Modular

/-! Euclid's algorithm with the coefficient of the number to invert. `EuclidRow` is what holds
before each division, and the product of the two numbers at least halves with each of them, so that
the loop ends within the steps granted. Main statements: `LeadsTo.exists_endsAfter` for the loop, and
`modInverse_of_coprime`, `modInverse_of_not_coprime` and `inverses_decided` for the result. -/
namespace Signet.Integer

/-- From one division to the next the product of the two numbers at least halves. -/
theorem two_mul_rest_le {big little : ℤ} (hpos : 0 < little) (hle : little ≤ big) :
    2 * (little * (big % little)) ≤ big * little := by
  have hlt := Int.emod_lt_of_pos big hpos
  have hquotient : 1 ≤ big / little := (Int.le_ediv_iff_mul_le hpos).mpr (by linarith)
  have hsplit := Int.mul_ediv_add_emod big little
  have hbig : 2 * (big % little) ≤ big := by nlinarith
  nlinarith

/-- What Euclid's algorithm knows before a division of `big` by `little`, on its way to the inverse
of `x` to the modulus `m`. -/
structure EuclidRow (x m big little s t : ℤ) : Prop where
  little_pos : 0 < little
  little_lt : little < big
  gcd_eq : Int.gcd big little = Int.gcd m x
  big_modEq : s * x ≡ big [ZMOD m]
  little_modEq : t * x ≡ little [ZMOD m]
  t_nonneg : 0 ≤ t
  t_lt : t < m

namespace EuclidRow

variable {x m big little s t : ℤ}

theorem modulus_pos (h : EuclidRow x m big little s t) : 0 < m := h.t_nonneg.trans_lt h.t_lt

theorem start (hx : 0 < x) (hlt : x < m) : EuclidRow x m m x 0 1 where
  little_pos := hx
  little_lt := hlt
  gcd_eq := rfl
  big_modEq := by rw [zero_mul]; exact (Int.modEq_zero_iff_dvd.mpr dvd_rfl).symm
  little_modEq := by rw [one_mul]
  t_nonneg := zero_le_one
  t_lt := by omega

/-- A division that leaves something over leads to the next row. -/
theorem next (h : EuclidRow x m big little s t) (hr : big % little ≠ 0) :
    EuclidRow x m little (big % little) t ((s - big / little * t) % m) where
  little_pos := lt_of_le_of_ne (Int.emod_nonneg _ h.little_pos.ne') hr.symm
  little_lt := Int.emod_lt_of_pos _ h.little_pos
  gcd_eq := by rw [← h.gcd_eq, Int.gcd_comm, Int.gcd_emod]
  big_modEq := h.little_modEq
  little_modEq := by
    have hsplit : big % little = big - big / little * little := by
      rw [Int.emod_def, mul_comm]
    calc (s - big / little * t) % m * x
        ≡ (s - big / little * t) * x [ZMOD m] := (Int.mod_modEq _ _).mul_right x
      _ = s * x - big / little * (t * x) := by ring
      _ ≡ big - big / little * little [ZMOD m] := h.big_modEq.sub (h.little_modEq.mul_left _)
      _ = big % little := hsplit.symm
  t_nonneg := Int.emod_nonneg _ h.modulus_pos.ne'
  t_lt := Int.emod_lt_of_pos _ h.modulus_pos

theorem two_mul_next_le (h : EuclidRow x m big little s t) :
    2 * (little * (big % little)) ≤ big * little :=
  two_mul_rest_le h.little_pos h.little_lt.le

theorem little_eq_gcd (h : EuclidRow x m big little s t) (hr : big % little = 0) :
    little = Int.gcd x m := by
  rw [Int.gcd_comm x m, ← h.gcd_eq, Int.gcd_eq_natAbs_right (Int.dvd_of_emod_eq_zero hr),
    Int.natAbs_of_nonneg h.little_pos.le]

end EuclidRow

/-- Where Euclid's algorithm stands before a division of `big` by `little`, each with its
coefficient. -/
structure Euclid where
  big : Integer
  little : Integer
  s : Integer
  t : Integer

namespace Euclid

def start (x m : Integer) : Euclid := ⟨m, x, 0, 1⟩

/-- What the division leaves over. -/
def leftover (e : Euclid) : Integer := (divMod e.big e.little).2

/-- One pass of the loop. -/
def next (m : Integer) (e : Euclid) : Euclid :=
  ⟨e.little, e.leftover, e.t, (e.s - (divMod e.big e.little).1 * e.t) % m⟩

/-- What is read off when a division leaves nothing over. -/
def answer (e : Euclid) : Except Error Integer :=
  if e.little.isOne then .ok e.t else .error .notInvertible

/-- The loop ends after so many passes: until then each division leaves something over. -/
def EndsAfter (m : Integer) (passes : ℕ) (e : Euclid) : Prop :=
  (∀ i < passes, ((next m)^[i] e).leftover ≠ 0) ∧ ((next m)^[passes] e).leftover = 0

/-- What holds before each division on the way to the inverse of `x`. -/
def LeadsTo (e : Euclid) (x m : Integer) : Prop :=
  EuclidRow x.toInt m.toInt e.big.toInt e.little.toInt e.s.toInt e.t.toInt

/-- What the algorithm is to give. -/
def Inverts (x m : Integer) (result : Except Error Integer) : Prop :=
  if Int.gcd x.toInt m.toInt = 1 then
    ∃ y, result = .ok y ∧ 0 ≤ y.toInt ∧ y.toInt < m.toInt ∧ y.toInt * x.toInt ≡ 1 [ZMOD m.toInt]
  else result = .error .notInvertible

theorem invertDown_succ (m : Integer) (steps : ℕ) (e : Euclid) :
    invertDown m (steps + 1) e.big e.little e.s e.t =
      if e.leftover = 0 then e.answer
      else invertDown m steps (e.next m).big (e.next m).little (e.next m).s (e.next m).t := by
  simp only [invertDown, isZero, beq_iff_eq]
  rfl

variable {x m : Integer} {e : Euclid}

theorem LeadsTo.toInt_leftover (h : e.LeadsTo x m) :
    e.leftover.toInt = e.big.toInt % e.little.toInt :=
  toInt_mod e.big e.little h.little_pos

theorem LeadsTo.leftover_eq_zero_iff (h : e.LeadsTo x m) :
    e.leftover = 0 ↔ e.big.toInt % e.little.toInt = 0 := by
  rw [← toInt_inj, h.toInt_leftover, toInt_zero]

/-- A pass leads on. -/
theorem LeadsTo.next (h : e.LeadsTo x m) (hleft : e.leftover ≠ 0) : (e.next m).LeadsTo x m := by
  have hrow := EuclidRow.next h (mt h.leftover_eq_zero_iff.mpr hleft)
  have hquotient : (divMod e.big e.little).1.toInt = e.big.toInt / e.little.toInt :=
    toInt_div e.big e.little h.little_pos
  have hcoefficient : ((e.s - (divMod e.big e.little).1 * e.t) % m).toInt =
      (e.s.toInt - e.big.toInt / e.little.toInt * e.t.toInt) % m.toInt := by
    rw [toInt_mod _ _ h.modulus_pos, toInt_sub, toInt_mul, hquotient]
  rw [← hcoefficient, ← h.toInt_leftover] at hrow
  exact hrow

/-- When nothing is left over the divisor is the greatest common divisor, and its coefficient the
inverse. -/
theorem LeadsTo.inverts (h : e.LeadsTo x m) (hleft : e.leftover = 0) : Inverts x m e.answer := by
  have hlittle := h.little_eq_gcd (h.leftover_eq_zero_iff.mp hleft)
  have hone : e.little.isOne = true ↔ Int.gcd x.toInt m.toInt = 1 := by
    rw [isOne_iff, hlittle]
    omega
  rw [Inverts, answer]
  by_cases hgcd : Int.gcd x.toInt m.toInt = 1
  · have hmod := h.little_modEq
    rw [hlittle, hgcd] at hmod
    rw [if_pos hgcd, if_pos (hone.mpr hgcd)]
    exact ⟨e.t, rfl, h.t_nonneg, h.t_lt, by exact_mod_cast hmod⟩
  · rw [if_neg hgcd, if_neg (mt hone.mp hgcd)]

theorem EndsAfter.succ {passes : ℕ} (h : (e.next m).EndsAfter m passes) (hleft : e.leftover ≠ 0) :
    e.EndsAfter m (passes + 1) := by
  refine ⟨fun i hi => ?_, h.2⟩
  cases i with
  | zero => exact hleft
  | succ i => exact h.1 i (Nat.lt_of_succ_lt_succ hi)

/-- The loop ends before the steps are used up, and its last division decides. -/
theorem LeadsTo.exists_endsAfter (h : e.LeadsTo x m) {steps : ℕ}
    (hsteps : e.big.toInt * e.little.toInt < 2 ^ steps) :
    ∃ passes < steps, e.EndsAfter m passes ∧ ((Euclid.next m)^[passes] e).LeadsTo x m ∧
      invertDown m steps e.big e.little e.s e.t = ((Euclid.next m)^[passes] e).answer := by
  -- the measure is the product of the two numbers, which stays positive
  induction steps generalizing e with
  | zero =>
    have := h.little_pos
    have := h.little_lt
    rw [pow_zero] at hsteps
    nlinarith
  | succ steps ih =>
    rw [invertDown_succ]
    by_cases hleft : e.leftover = 0
    · rw [if_pos hleft]
      exact ⟨0, steps.succ_pos, ⟨fun i hi => absurd hi i.not_lt_zero, hleft⟩, h, rfl⟩
    · have hless : (e.next m).big.toInt * (e.next m).little.toInt < 2 ^ steps := by
        have hle := h.two_mul_next_le
        rw [← h.toInt_leftover] at hle
        rw [pow_succ] at hsteps
        change e.little.toInt * e.leftover.toInt < 2 ^ steps
        linarith
      obtain ⟨passes, hlt, hends, hlast, hrun⟩ := ih (h.next hleft) hless
      rw [if_neg hleft]
      exact ⟨passes + 1, Nat.succ_lt_succ hlt, hends.succ hleft, hlast, hrun⟩

end Euclid

theorem mul_lt_two_pow_euclidSteps (x m : Integer) (hx : 0 < x.toInt) (hle : x.toInt ≤ m.toInt) :
    m.toInt * x.toInt < 2 ^ m.euclidSteps := by
  have hm := (bits_le_iff m m.bits).mp le_rfl
  have hbound : m.toInt < 2 ^ m.bits := by
    have := Int.natAbs_of_nonneg (hx.trans_le hle).le
    calc m.toInt = m.toInt.natAbs := this.symm
      _ < ((2 ^ m.bits : ℕ) : ℤ) := by exact_mod_cast hm
      _ = 2 ^ m.bits := by push_cast; rfl
  calc m.toInt * x.toInt < 2 ^ m.bits * 2 ^ m.bits := by nlinarith
    _ = 2 ^ (2 * m.bits) := by rw [two_mul, pow_add]
    _ ≤ 2 ^ m.euclidSteps := pow_le_pow_right₀ one_le_two (by rw [euclidSteps]; omega)

theorem modInverse_in_range (x m : Integer) (hx : 0 < x.toInt) (hlt : x.toInt < m.toInt) :
    x.modInverse m = invertDown m m.euclidSteps m x 0 1 := by
  have hzero : x.isZero = false := Bool.eq_false_iff.mpr (mt (isZero_iff x).mp (by omega))
  have hneg : x.isNegative = false := Bool.eq_false_iff.mpr (mt (isNegative_iff x).mp (by omega))
  have hmneg : m.isNegative = false := Bool.eq_false_iff.mpr (mt (isNegative_iff m).mp (by omega))
  have hle : decide (m ≤ x) = false := decide_eq_false (mt le_iff.mp (by omega))
  rw [modInverse, if_neg]
  simp [hzero, hneg, hmneg, hle]

/-- In range the loop is run to its end, and gives what it is to give. -/
theorem modInverse_ends (x m : Integer) (hx : 0 < x.toInt) (hlt : x.toInt < m.toInt) :
    ∃ passes < m.euclidSteps, (Euclid.start x m).EndsAfter m passes ∧
      x.modInverse m = ((Euclid.next m)^[passes] (.start x m)).answer ∧
      Euclid.Inverts x m (x.modInverse m) := by
  have hstart : (Euclid.start x m).LeadsTo x m := EuclidRow.start hx hlt
  obtain ⟨passes, hsteps, hends, hlast, hrun⟩ :=
    hstart.exists_endsAfter (mul_lt_two_pow_euclidSteps x m hx hlt.le)
  have hanswer := (modInverse_in_range x m hx hlt).trans hrun
  exact ⟨passes, hsteps, hends, hanswer, hanswer ▸ hlast.inverts hends.2⟩

theorem modInverse_out_of_range (x m : Integer) (h : ¬(0 < x.toInt ∧ x.toInt < m.toInt)) :
    x.modInverse m = .error .invalidParameter := by
  rw [modInverse, if_pos]
  by_cases hneg : x.toInt < 0
  · simp [(isNegative_iff x).mpr hneg]
  · by_cases hzero : x.toInt = 0
    · simp [(isZero_iff x).mpr hzero]
    · simp [le_iff.mpr (show m.toInt ≤ x.toInt by omega)]

/-- A number below the modulus that shares no factor with it has an inverse there. -/
theorem modInverse_of_coprime (x m : Integer) (hx : 0 < x.toInt) (hlt : x.toInt < m.toInt)
    (h : Int.gcd x.toInt m.toInt = 1) :
    ∃ y, x.modInverse m = .ok y ∧ 0 < y.toInt ∧ y.toInt < m.toInt ∧
      x.toInt * y.toInt ≡ 1 [ZMOD m.toInt] := by
  obtain ⟨-, -, -, -, hinverts⟩ := modInverse_ends x m hx hlt
  rw [Euclid.Inverts, if_pos h] at hinverts
  obtain ⟨y, hy, hnonneg, hym, hmod⟩ := hinverts
  -- zero inverts nothing to a modulus above one
  have hne : y.toInt ≠ 0 := by
    intro hzero
    rw [hzero, zero_mul, Int.modEq_iff_dvd, sub_zero] at hmod
    have := Int.le_of_dvd one_pos hmod
    omega
  refine ⟨y, hy, by omega, hym, ?_⟩
  rwa [mul_comm]

theorem modInverse_of_not_coprime (x m : Integer) (hx : 0 < x.toInt) (hlt : x.toInt < m.toInt)
    (h : Int.gcd x.toInt m.toInt ≠ 1) : x.modInverse m = .error .notInvertible := by
  obtain ⟨-, -, -, -, hinverts⟩ := modInverse_ends x m hx hlt
  rwa [Euclid.Inverts, if_neg h] at hinverts

theorem modInverse_eq_ok {x m y : Integer} (h : x.modInverse m = .ok y) :
    0 < x.toInt ∧ x.toInt < m.toInt ∧ 0 < y.toInt ∧ y.toInt < m.toInt ∧
      x.toInt * y.toInt ≡ 1 [ZMOD m.toInt] := by
  by_cases hrange : 0 < x.toInt ∧ x.toInt < m.toInt
  · obtain ⟨hx, hlt⟩ := hrange
    by_cases hgcd : Int.gcd x.toInt m.toInt = 1
    · obtain ⟨z, hz, hfacts⟩ := modInverse_of_coprime x m hx hlt hgcd
      obtain rfl : y = z := Except.ok.inj (h.symm.trans hz)
      exact ⟨hx, hlt, hfacts⟩
    · rw [modInverse_of_not_coprime x m hx hlt hgcd] at h
      cases h
  · rw [modInverse_out_of_range x m hrange] at h
    cases h

/-- To a modulus there is one inverse in range at most. -/
theorem eq_of_mul_modEq_one {x y z m : ℤ} (hy : 0 < y) (hym : y < m) (hz : 0 < z) (hzm : z < m)
    (hxy : x * y ≡ 1 [ZMOD m]) (hxz : x * z ≡ 1 [ZMOD m]) : y = z := by
  have hmod : y ≡ z [ZMOD m] :=
    calc y = y * 1 := (mul_one y).symm
      _ ≡ y * (x * z) [ZMOD m] := hxz.symm.mul_left y
      _ = x * y * z := by ring
      _ ≡ 1 * z [ZMOD m] := hxy.mul_right z
      _ = z := one_mul z
  rwa [Int.ModEq, Int.emod_eq_of_lt hy.le hym, Int.emod_eq_of_lt hz.le hzm] at hmod

/-- A number in range has its one inverse in range as the result, when it shares no factor with the
modulus, and is refused otherwise; out of range there is nothing to invert. The loop ends within the
steps granted, and the answer is read off its last division. -/
theorem inverses_decided (a m : Integer) :
    (0 < a.toInt ∧ a.toInt < m.toInt →
        (∃ passes < m.euclidSteps, (Euclid.start a m).EndsAfter m passes ∧
          a.modInverse m = ((Euclid.next m)^[passes] (.start a m)).answer) ∧
        (Int.gcd a.toInt m.toInt = 1 → ∃ x, a.modInverse m = .ok x ∧ 0 < x.toInt ∧
          x.toInt < m.toInt ∧ a.toInt * x.toInt ≡ 1 [ZMOD m.toInt] ∧
          ∀ y : ℤ, 0 < y → y < m.toInt → a.toInt * y ≡ 1 [ZMOD m.toInt] → y = x.toInt) ∧
        (Int.gcd a.toInt m.toInt ≠ 1 → a.modInverse m = .error .notInvertible)) ∧
      (¬(0 < a.toInt ∧ a.toInt < m.toInt) → a.modInverse m = .error .invalidParameter) := by
  refine ⟨?_, modInverse_out_of_range a m⟩
  rintro ⟨ha, hlt⟩
  refine ⟨?_, ?_, modInverse_of_not_coprime a m ha hlt⟩
  · obtain ⟨passes, hsteps, hends, hanswer, -⟩ := modInverse_ends a m ha hlt
    exact ⟨passes, hsteps, hends, hanswer⟩
  · intro hgcd
    obtain ⟨x, hx, hpos, hxm, hinverse⟩ := modInverse_of_coprime a m ha hlt hgcd
    refine ⟨x, hx, hpos, hxm, hinverse, ?_⟩
    intro y hy hym hmod
    exact eq_of_mul_modEq_one hy hym hpos hxm hmod hinverse

/-- An inverse, a number that shares a factor with the modulus, and one that is not below it. -/
theorem inverses_decided_sample :
    (∃ passes < (ofInt64 3220).euclidSteps,
        (Euclid.start (ofInt64 79) (ofInt64 3220)).EndsAfter (ofInt64 3220) passes) ∧
      (∃ x, (ofInt64 79).modInverse (ofInt64 3220) = .ok x ∧ 79 * x.toInt ≡ 1 [ZMOD 3220] ∧
        x = ofInt64 1019) ∧
      (ofInt64 6).modInverse (ofInt64 9) = .error .notInvertible ∧
      (ofInt64 9).modInverse (ofInt64 9) = .error .invalidParameter := by
  obtain ⟨⟨passes, hsteps, hends, -⟩, hinverse, -⟩ :=
    (inverses_decided (ofInt64 79) (ofInt64 3220)).1 (by decide)
  obtain ⟨x, hx, -, -, hmod, hunique⟩ := hinverse (by decide)
  refine ⟨⟨passes, hsteps, hends⟩, ⟨x, hx, hmod, ?_⟩, ?_, ?_⟩
  · rw [← toInt_inj, ← hunique 1019 (by decide) (by decide) (by decide)]
    decide
  · exact ((inverses_decided (ofInt64 6) (ofInt64 9)).1 (by decide)).2.2 (by decide)
  · exact (inverses_decided (ofInt64 9) (ofInt64 9)).2 (by decide)

end Signet.Integer
