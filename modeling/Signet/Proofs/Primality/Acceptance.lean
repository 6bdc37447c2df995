import Mathlib
import Signet.Primality.Test
import Signet.Proofs.Integer.Octets
import Signet.Proofs.Integer.Power
import Signet.Proofs.Primality.Search

/-! A prime passes every round of the test, whatever digest the witnesses come from: to a prime
modulus one has no other square roots than one and minus one. Main statements: `testWith_of_prime`
and `search_value_of_prime`. -/
namespace Signet.Primality

theorem toInt_halve {x : Integer} (hx : 0 ≤ x.toInt) : x.halve.toInt = x.toInt / 2 := by
  have hsign : x.negative = false :=
    Bool.eq_false_iff.mpr (mt (Integer.negative_iff x).mp (by omega))
  have hsize := Integer.toNat_magnitude x
  rw [Integer.halve, Integer.toInt_ofMagnitude, hsign, if_neg Bool.false_ne_true,
    Magnitude.toNat_halve]
  omega

theorem splitTwos_spec (count : ℕ) (m : Integer) (hm : 0 < m.toInt) :
    0 < (splitTwos count m).2.toInt ∧
      m.toInt = 2 ^ (splitTwos count m).1 * (splitTwos count m).2.toInt := by
  induction count generalizing m with
  | zero => exact ⟨hm, by rw [splitTwos, pow_zero, one_mul]⟩
  | succ count ih =>
    rw [splitTwos]
    split
    · next heven =>
      have hodd : ¬ m.toInt % 2 = 1 := by
        rw [← Integer.isOdd_iff, Bool.not_eq_true]
        simpa [Integer.isEven] using heven
      have hhalf := toInt_halve hm.le
      obtain ⟨hpos, hsplit⟩ := ih m.halve (by omega)
      refine ⟨hpos, ?_⟩
      dsimp only
      rw [pow_succ', mul_assoc, ← hsplit, hhalf]
      omega
    · exact ⟨hm, by rw [pow_zero, one_mul]⟩

theorem testBit_clearAll (m : Magnitude) (places : List ℕ) (i : ℕ) :
    (places.foldl Magnitude.clearBit m).toNat.testBit i =
      (decide (i ∉ places) && m.toNat.testBit i) := by
  induction places generalizing m with
  | nil => simp
  | cons place rest ih =>
    rw [List.foldl_cons, ih, Magnitude.testBit_clearBit]
    by_cases h : i = place <;> simp [h]

/-- A witness has its highest digit set and takes the digits below from the bytes drawn. -/
theorem toInt_witness {bits : ℕ} (hbits : 2 ≤ bits) (bytes : Bytes) :
    (witness bits bytes).toInt =
      (2 ^ (bits - 2) + Bytes.ofBigEndian bytes % 2 ^ (bits - 2) : ℕ) := by
  have hdrawn : (Integer.ofBytes bytes).magnitude.toNat = Bytes.ofBigEndian bytes := by
    rw [Integer.toNat_magnitude, Integer.toInt_ofBytes, Int.natAbs_natCast]
  have hlt : Bytes.ofBigEndian bytes < 2 ^ (8 * bytes.length) := by
    rw [pow_mul]
    exact Bytes.ofBigEndian_lt bytes
  rw [witness, Integer.toInt_ofMagnitude, if_neg Bool.false_ne_true]
  congr 1
  apply Nat.eq_of_testBit_eq
  intro i
  have hlow := Nat.two_pow_add_eq_or_of_lt
    (Nat.mod_lt (Bytes.ofBigEndian bytes) (Nat.two_pow_pos (bits - 2))) 1
  rw [mul_one] at hlow
  rw [Magnitude.testBit_setBit, testBit_clearAll, hdrawn, hlow, Nat.testBit_or,
    Nat.testBit_two_pow, Nat.testBit_mod_two_pow]
  rcases lt_trichotomy i (bits - 2) with hi | hi | hi
  · simp [hi, List.mem_range', show ¬ bits - 2 = i by omega, show ¬ i = bits - 2 by omega]
    omega
  · simp [hi]
  · have hhigh : (decide (i ∉ List.range' (bits - 1) (8 * bytes.length - (bits - 1))) &&
        (Bytes.ofBigEndian bytes).testBit i) = false := by
      by_cases hwide : i < 8 * bytes.length
      · rw [decide_eq_false, Bool.false_and]
        rw [not_not, List.mem_range'_1]
        omega
      · rw [Nat.testBit_lt_two_pow (hlt.trans_le (Nat.pow_le_pow_right two_pos (by omega))),
          Bool.and_false]
    rw [hhigh]
    simp [show ¬ i < bits - 2 by omega, show ¬ bits - 2 = i by omega, show ¬ i = bits - 2 by omega]

/-- A witness has one digit less than the number that it is drawn for. -/
theorem witness_bounds {p : Integer} (hp : 1 < p.toInt) (bytes : Bytes) :
    0 < (witness p.bits bytes).toInt ∧ (witness p.bits bytes).toInt < p.toInt := by
  have hwide : 2 ≤ p.bits := (Integer.two_le_bits_iff (by omega)).mpr hp
  have hlarge : 2 ^ (p.bits - 1) ≤ p.toInt.natAbs := by
    by_contra hsmall
    have := (Integer.bits_le_iff p (p.bits - 1)).mpr (by omega)
    omega
  have hvalue := toInt_witness hwide bytes
  have hlow := Nat.mod_lt (Bytes.ofBigEndian bytes) (Nat.two_pow_pos (p.bits - 2))
  have hdouble : 2 ^ (p.bits - 1) = 2 * 2 ^ (p.bits - 2) := by
    rw [← pow_succ']
    congr 1
    omega
  have hpos := Nat.two_pow_pos (p.bits - 2)
  constructor <;> omega

theorem Candidate.of_p (p : Integer) : (Candidate.of p).p = p := rfl

section Prime

variable {p : Integer} (hp : p.toInt.toNat.Prime)
include hp

theorem one_lt_of_prime : 1 < p.toInt := by
  have := hp.one_lt
  omega

/-- To a prime modulus one has two square roots. -/
theorem eq_one_or_of_sq_modEq_one {z : ℤ} (hz : 0 ≤ z) (hlt : z < p.toInt)
    (h : z * z ≡ 1 [ZMOD p.toInt]) : z = 1 ∨ z = p.toInt - 1 := by
  have hone := one_lt_of_prime hp
  have hprime : Prime p.toInt := by
    rw [← Int.toNat_of_nonneg (show 0 ≤ p.toInt by omega)]
    exact Nat.prime_iff_prime_int.mp hp
  have hdvd : p.toInt ∣ (z - 1) * (z + 1) := by
    have := h.symm.dvd
    rwa [show z * z - 1 = (z - 1) * (z + 1) by ring] at this
  rcases hprime.dvd_or_dvd hdvd with h1 | h1
  · left
    have hzero : z ≡ 1 [ZMOD p.toInt] := (Int.modEq_of_dvd h1).symm
    rwa [Int.ModEq, Int.emod_eq_of_lt hz hlt, Int.emod_eq_of_lt zero_le_one hone] at hzero
  · right
    have := Int.le_of_dvd (by omega) h1
    omega

/-- A number other than one whose repeated squares end at one meets minus one on the way. -/
theorem squaresReach_of_pow_modEq_one (count : ℕ) (z : Integer) (hz : 0 ≤ z.toInt)
    (hlt : z.toInt < p.toInt) (hone : z.toInt ≠ 1)
    (h : z.toInt ^ 2 ^ count ≡ 1 [ZMOD p.toInt]) : squaresReach p (p - 1) count z = true := by
  have h1 := one_lt_of_prime hp
  induction count generalizing z with
  | zero =>
    rw [pow_zero, pow_one, Int.ModEq, Int.emod_eq_of_lt hz hlt,
      Int.emod_eq_of_lt zero_le_one h1] at h
    exact absurd h hone
  | succ count ih =>
    rw [squaresReach, Bool.or_eq_true]
    by_cases hminus : z.toInt = p.toInt - 1
    · left
      rw [beq_iff_eq, ← Integer.toInt_inj, Integer.toInt_sub, Integer.toInt_one, hminus]
    · right
      have hsquare : (z * z % p).toInt = z.toInt * z.toInt % p.toInt := by
        rw [Integer.toInt_mod _ _ (by omega), Integer.toInt_mul]
      have hmod : (z * z % p).toInt ≡ z.toInt * z.toInt [ZMOD p.toInt] := by
        rw [hsquare]
        exact Int.mod_modEq _ _
      apply ih
      · rw [hsquare]
        exact Int.emod_nonneg _ (by omega)
      · rw [hsquare]
        exact Int.emod_lt_of_pos _ (by omega)
      · intro hsq
        rw [hsq] at hmod
        rcases eq_one_or_of_sq_modEq_one hp hz hlt hmod.symm with hroot | hroot
        · exact hone hroot
        · exact hminus hroot
      · refine (hmod.pow _).trans ?_
        rwa [← sq, ← pow_mul, ← pow_succ']

/-- No base between zero and a prime gives the prime away. -/
theorem passes_of_prime {base : Integer} (hbase : 0 < base.toInt) (hlt : base.toInt < p.toInt) :
    (Candidate.of p).passes base = true := by
  have h1 := one_lt_of_prime hp
  have hminus : (p - 1).toInt = p.toInt - 1 := by rw [Integer.toInt_sub, Integer.toInt_one]
  obtain ⟨hodd, hsplit⟩ := splitTwos_spec (p - 1).bits (p - 1) (by omega)
  have hvalue : (base.modPow (splitTwos (p - 1).bits (p - 1)).2 p).toInt =
      base.toInt ^ (splitTwos (p - 1).bits (p - 1)).2.toInt.natAbs % p.toInt :=
    Integer.toInt_modPow_of_one_lt _ _ _ hodd.ne' h1
  rw [Candidate.passes, Bool.or_eq_true]
  change (base.modPow (splitTwos (p - 1).bits (p - 1)).2 p).isOne = true ∨
    squaresReach p (p - 1) (splitTwos (p - 1).bits (p - 1)).1
      (base.modPow (splitTwos (p - 1).bits (p - 1)).2 p) = true
  generalize splitTwos (p - 1).bits (p - 1) = parts at hodd hsplit hvalue ⊢
  rw [Integer.isOne_iff, or_iff_not_imp_left]
  -- the squares of the power end at the power with `p - 1`, which is one
  intro hone
  apply squaresReach_of_pow_modEq_one hp _ _ _ _ hone
  · have hcoprime : IsCoprime base.toInt (p.toInt.toNat : ℤ) := by
      refine ((Nat.prime_iff_prime_int.mp hp).coprime_iff_not_dvd.mpr ?_).symm
      intro hdvd
      have := Int.le_of_dvd hbase hdvd
      omega
    have hfermat := Int.ModEq.pow_card_sub_one_eq_one hp hcoprime
    have hexponent : parts.2.toInt.natAbs * 2 ^ parts.1 = p.toInt.toNat - 1 := by
      zify [hp.one_le]
      rw [abs_of_pos hodd, mul_comm, ← hsplit, hminus, Int.toNat_of_nonneg (by omega)]
    rw [Int.toNat_of_nonneg (by omega)] at hfermat
    rw [hvalue]
    refine ((Int.mod_modEq _ _).pow _).trans ?_
    rwa [← pow_mul, hexponent]
  · rw [hvalue]
    exact Int.emod_nonneg _ (by omega)
  · rw [hvalue]
    exact Int.emod_lt_of_pos _ (by omega)

theorem passes_witness_of_prime (bytes : Bytes) :
    (Candidate.of p).passes (witness p.bits bytes) = true := by
  obtain ⟨hpos, hlt⟩ := witness_bounds (one_lt_of_prime hp) bytes
  exact passes_of_prime hp hpos hlt

theorem rounds_of_prime {hash : Bytes → Block} (count index : ℕ) (chain : HashChain hash) :
    ((Candidate.of p).rounds count index chain).value = .ok true := by
  induction count generalizing index chain with
  | zero => rfl
  | succ count ih =>
    rw [Candidate.rounds, Monitored.value]
    dsimp only
    rw [Candidate.of_p, if_pos (passes_witness_of_prime hp _)]
    exact ih _ _

/-- The test accepts every odd prime. -/
theorem testWith_of_prime (hodd : p.toInt % 2 = 1) (hash : Bytes → Block) (requested : ℕ) :
    (testWith hash p requested).value = .ok true := by
  have h1 := one_lt_of_prime hp
  rw [testWith_of_fit hash requested hodd (by omega)]
  exact rounds_of_prime hp _ _ _

theorem search_value_of_prime {bits : ℕ} {seed : Bytes} (hstart : searchStart bits seed = .ok p)
    (hodd : p.toInt % 2 = 1) (hbits : p.bits = bits)
    (hsieve : sievePasses (residues p) 0 = true) : (search bits seed).value = .ok p := by
  have hcount : walkLength = maxStep / 2 + 3 + 1 := rfl
  have hoffset : nextOffset (residues p) walkLength 0 = some 0 := by
    rw [hcount, nextOffset, if_pos hsieve]
  have hcandidate : p + .ofUInt64 (UInt64.ofNat (0 - 0)) = p := by
    rw [← Integer.toInt_inj, Integer.toInt_add, Integer.toInt_ofUInt64]
    exact add_zero _
  have hwalk (count : ℕ) : (walk (fun p => test p 0) (residues p) bits (count + 1)
      { candidate := p, base := 0, offset := 0 }).value = .ok p :=
    walk_value_of_accepted hoffset hcandidate hbits (testWith_of_prime hp hodd _ _)
  rw [search, searchWith, Monitored.value_bind, hstart, Monitored.ofExcept, Monitored.value,
    ok_bind, hcount, hwalk]

end Prime

end Signet.Primality
