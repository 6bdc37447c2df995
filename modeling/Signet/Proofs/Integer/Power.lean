import Mathlib
import Signet.Integer.Modular
import Signet.Proofs.Integer.Division

/-! Square and multiply keeps the product of its result with the rest of the power, to the modulus,
whatever sign the modulus has. Main statements: `toInt_modPow` and, with the cases that have no
remainder to give, `powers_floor`. -/
namespace Signet.Integer

theorem toInt_mod_modEq (a b : Integer) (hb : b.toInt ≠ 0) :
    (a % b).toInt ≡ a.toInt [ZMOD b.toInt] := by
  change (divMod a b).2.toInt ≡ _ [ZMOD _]
  rw [(toInt_divMod a b hb).2]
  apply Int.modEq_of_dvd
  rw [Int.fmod_def, sub_sub_cancel]
  exact dvd_mul_right _ _

theorem fmod_eq_of_modEq {a b m : ℤ} (h : a ≡ b [ZMOD m]) : a.fmod m = b.fmod m := by
  obtain ⟨c, rfl⟩ := Int.modEq_iff_add_fac.mp h
  rw [Int.add_mul_fmod_self_left]

/-- The binary digits at the first places give the number back, as far as they reach. -/
theorem ofDigits_testBit (n : ℕ) (places : ℕ) :
    Nat.ofDigits 2 (((List.range places).map n.testBit).map Bool.toNat) = n % 2 ^ places := by
  induction places generalizing n with
  | zero => rw [pow_zero, Nat.mod_one]; rfl
  | succ places ih =>
    have hrest : (List.range places).map (n.testBit ∘ Nat.succ) =
        (List.range places).map (n / 2).testBit := by
      apply List.map_congr_left
      intro i _
      exact Nat.testBit_succ n i
    have hlow : (n.testBit 0).toNat = n % 2 := by
      rw [Nat.testBit_zero]
      rcases Nat.mod_two_eq_zero_or_one n with h | h <;> simp [h]
    rw [List.range_succ_eq_map, List.map_cons, List.map_map, hrest, List.map_cons,
      Nat.ofDigits_cons, ih, hlow, pow_succ', Nat.mod_mul]

theorem ofDigits_toBits (x : Integer) :
    Nat.ofDigits 2 (x.magnitude.toBits.map Bool.toNat) = x.toInt.natAbs := by
  have hlt := (Magnitude.lt_two_pow_iff x.magnitude x.magnitude.bits).mpr le_rfl
  have hbits : x.magnitude.testBit = x.magnitude.toNat.testBit :=
    funext (Magnitude.testBit_eq x.magnitude)
  rw [Magnitude.toBits, hbits, ofDigits_testBit, Nat.mod_eq_of_lt hlt, toNat_magnitude]

/-- Each round of square and multiply keeps the value of the result times the power that is still
to come. -/
theorem powerUp_modEq (m : Integer) (hm : m.toInt ≠ 0) (digits : List Bool)
    (result power : Integer) :
    (powerUp m digits result power).toInt ≡
      result.toInt * power.toInt ^ Nat.ofDigits 2 (digits.map Bool.toNat) [ZMOD m.toInt] := by
  have hproduct (a b : Integer) : (a * b % m).toInt ≡ a.toInt * b.toInt [ZMOD m.toInt] := by
    rw [← toInt_mul]
    exact toInt_mod_modEq _ _ hm
  induction digits generalizing result power with
  | nil => rw [powerUp, List.map_nil, Nat.ofDigits_nil, pow_zero, mul_one]
  | cons digit rest ih =>
    have hstep : (if digit then result * power % m else result).toInt ≡
        result.toInt * power.toInt ^ digit.toNat [ZMOD m.toInt] := by
      cases digit with
      | false => simp [Int.ModEq.refl]
      | true => simpa using hproduct result power
    -- the power is not squared behind the last digit
    cases rest with
    | nil => simpa [powerUp] using hstep
    | cons next rest =>
      rw [powerUp, List.map_cons, Nat.ofDigits_cons]
      refine (ih _ _).trans ?_
      rw [pow_add, pow_mul, ← mul_assoc, sq]
      exact hstep.mul ((hproduct power power).pow _)
      simp

/-- Once a digit is set the result is a remainder. -/
theorem powerUp_reduced (m : Integer) (hm : m.toInt ≠ 0) (digits : List Bool)
    (result power : Integer)
    (h : Nat.ofDigits 2 (digits.map Bool.toNat) ≠ 0 ∨ result.toInt.fmod m.toInt = result.toInt) :
    (powerUp m digits result power).toInt.fmod m.toInt = (powerUp m digits result power).toInt := by
  have hmod (a : Integer) : (a % m).toInt.fmod m.toInt = (a % m).toInt := by
    change (divMod a m).2.toInt.fmod _ = (divMod a m).2.toInt
    rw [(toInt_divMod a m hm).2, Int.fmod_fmod]
  induction digits generalizing result power with
  | nil =>
    rcases h with h | h
    · exact absurd rfl h
    · exact h
  | cons digit rest ih =>
    -- a set digit reduces the result, and an unset one leaves a set one behind it
    have hnext : Nat.ofDigits 2 (rest.map Bool.toNat) ≠ 0 ∨
        (if digit then result * power % m else result).toInt.fmod m.toInt =
          (if digit then result * power % m else result).toInt := by
      cases digit with
      | false => simpa [Nat.ofDigits_cons] using h
      | true => exact Or.inr (hmod _)
    cases rest with
    | nil =>
      rcases hnext with hnext | hnext
      · exact absurd rfl hnext
      · exact hnext
    | cons next rest => exact ih _ _ hnext

/-- The power to a modulus is the floor remainder of the power. -/
theorem toInt_modPow (base exponent modulus : Integer) (hbase : base.toInt ≠ 0)
    (hexponent : exponent.toInt ≠ 0) (hzero : modulus.toInt ≠ 0) (hone : modulus.toInt ≠ 1) :
    (base.modPow exponent modulus).toInt =
      (base.toInt ^ exponent.toInt.natAbs).fmod modulus.toInt := by
  have hvalue := ofDigits_toBits exponent
  have hpower := powerUp_modEq modulus hzero exponent.magnitude.toBits 1 (base % modulus)
  have hreduced := powerUp_reduced modulus hzero exponent.magnitude.toBits 1 (base % modulus)
    (Or.inl (by rw [hvalue]; omega))
  rw [hvalue, toInt_one, one_mul] at hpower
  rw [modPow, if_neg (by simp [isZero_iff, isOne_iff, hbase, hzero, hone]),
    if_neg (by simp [isZero_iff, hexponent]), ← hreduced]
  exact fmod_eq_of_modEq (hpower.trans ((toInt_mod_modEq base modulus hzero).pow _))

theorem toInt_modPow_of_one_lt (base exponent modulus : Integer) (hexponent : exponent.toInt ≠ 0)
    (hmodulus : 1 < modulus.toInt) :
    (base.modPow exponent modulus).toInt =
      base.toInt ^ exponent.toInt.natAbs % modulus.toInt := by
  by_cases hbase : base.toInt = 0
  · rw [modPow, if_pos (by simp [isZero_iff, hbase]), toInt_zero, hbase,
      zero_pow (by omega), Int.zero_emod]
  · rw [toInt_modPow base exponent modulus hbase hexponent (by omega) (by omega),
      Int.fmod_eq_emod_of_nonneg _ (by omega)]

/-- A power to a modulus is what the floor of the quotient leaves of the power, and so lies between
zero and the modulus, on whichever side that is. A zero base and the moduli zero and one give zero,
and a zero exponent gives one for any other base and modulus. -/
theorem powers_floor (a e m : Integer) :
    (a ≠ 0 → e ≠ 0 → m ≠ 0 → m ≠ 1 →
        (a.modPow e m).toInt = a.toInt ^ e.toInt.natAbs -
          ⌊((a.toInt ^ e.toInt.natAbs : ℤ) : ℚ) / m.toInt⌋ * m.toInt ∧
        (0 < m.toInt → 0 ≤ (a.modPow e m).toInt ∧ (a.modPow e m).toInt < m.toInt) ∧
        (m.toInt < 0 → m.toInt < (a.modPow e m).toInt ∧ (a.modPow e m).toInt ≤ 0)) ∧
      (a = 0 ∨ m = 0 ∨ m = 1 → a.modPow e m = 0) ∧
      (a ≠ 0 → m ≠ 0 → m ≠ 1 → a.modPow 0 m = 1) := by
  refine ⟨?_, ?_, ?_⟩
  · intro ha he hm hone
    rw [← toInt_inj.ne, toInt_zero] at ha he hm
    rw [← toInt_inj.ne, toInt_one] at hone
    obtain ⟨hsplit, hbetween⟩ := between_fmod (a.toInt ^ e.toInt.natAbs) hm
    rw [toInt_modPow a e m ha he hm hone, hbetween.floor_eq hsplit]
    refine ⟨by linarith, ?_, ?_⟩
    · intro hpos
      exact hbetween.resolve_right fun h => by omega
    · intro hneg
      obtain ⟨hle, hlt⟩ := hbetween.resolve_left fun h => by omega
      exact ⟨hlt, hle⟩
  · intro hzero
    rw [modPow, if_pos]
    simpa [isZero, isOne, or_assoc] using hzero
  · intro ha hm hone
    rw [modPow, if_neg, if_pos ((isZero_iff 0).mpr toInt_zero)]
    simp [isZero, isOne, ha, hm, hone]

/-- The third power of ten below zero, to a modulus below zero and to one that divides it. -/
theorem powers_floor_sample :
    let a := ofInt64 (-10)
    let m := ofInt64 (-7)
    (a ≠ 0 ∧ m ≠ 0 ∧ m ≠ 1 ∧
        (a.modPow (ofInt64 3) m).toInt = -1000 - ⌊((-1000 : ℤ) : ℚ) / (-7 : ℤ)⌋ * -7 ∧
        (a.modPow (ofInt64 3) m).toInt = -6 ∧ a.modPow 0 m = 1) ∧
      (0 ≤ (a.modPow (ofInt64 (-3)) (ofInt64 8)).toInt ∧
        (a.modPow (ofInt64 (-3)) (ofInt64 8)).toInt < 8) ∧
      a.modPow (ofInt64 3) 1 = 0 := by
  intro a m
  have ha : a ≠ 0 := by decide
  have hm : m ≠ 0 ∧ m ≠ 1 := by decide
  obtain ⟨hvalue, -, hzero⟩ := powers_floor a (ofInt64 3) m
  obtain ⟨hdivides, -⟩ := powers_floor a (ofInt64 (-3)) (ofInt64 8)
  refine ⟨⟨ha, hm.1, hm.2, ?_, by decide, hzero ha hm.1 hm.2⟩, ?_, ?_⟩
  · exact (hvalue ha (by decide) hm.1 hm.2).1
  · exact (hdivides ha (by decide) (by decide) (by decide)).2.1 (by decide)
  · exact (powers_floor a (ofInt64 3) 1).2.1 (.inr (.inr rfl))

end Signet.Integer
