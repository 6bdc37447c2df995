import Mathlib
import Signet.Key.Operation
import Signet.Proofs.Integer.Power
import Signet.Proofs.Key.Soundness

/-! The two operations of a key pair undo each other below the modulus when the factors are prime.
Both ways of the private operation are compared with one description of their result, by its
remainders to the two factors (`IsRoot`). A legacy key raises to its exponent without regard to the
sign, which undoes nothing when the sign is negative. -/
namespace Signet

/-- An exponent that is one to the modulus `p - 1` changes no number to the modulus `p`. -/
theorem pow_modEq_self {p : ℤ} (hp : p.toNat.Prime) (h2 : 2 < p) {k : ℕ}
    (hk : (k : ℤ) ≡ 1 [ZMOD p - 1]) (m : ℤ) : m ^ k ≡ m [ZMOD p] := by
  lift p to ℕ using by omega
  rw [Int.toNat_natCast] at hp
  have hcast : ((p - 1 : ℕ) : ℤ) = p - 1 := by rw [Nat.cast_sub hp.one_le, Nat.cast_one]
  have hpos : k ≠ 0 := by
    rintro rfl
    have := Int.le_of_dvd one_pos (by simpa using hk.dvd)
    omega
  obtain ⟨j, hj⟩ : p - 1 ∣ k - 1 := by
    have hdvd := hk.symm.dvd
    rw [← hcast] at hdvd
    exact_mod_cast (show ((p - 1 : ℕ) : ℤ) ∣ ((k - 1 : ℕ) : ℤ) by
      rwa [Nat.cast_sub (Nat.one_le_iff_ne_zero.mpr hpos), Nat.cast_one])
  have hsplit : k = 1 + (p - 1) * j := by omega
  rw [hsplit, pow_add, pow_one, pow_mul]
  -- a multiple of the prime has no power that is one, but all of them are zero
  by_cases hdvd : (p : ℤ) ∣ m
  · have hzero : m ≡ 0 [ZMOD p] := Int.modEq_zero_iff_dvd.mpr hdvd
    calc m * (m ^ (p - 1)) ^ j ≡ 0 * (m ^ (p - 1)) ^ j [ZMOD p] := hzero.mul_right _
      _ = 0 := zero_mul _
      _ ≡ m [ZMOD p] := hzero.symm
  · have hcoprime : IsCoprime m p :=
      ((Nat.prime_iff_prime_int.mp hp).coprime_iff_not_dvd.mpr hdvd).symm
    calc m * (m ^ (p - 1)) ^ j ≡ m * 1 ^ j [ZMOD p] :=
          ((Int.ModEq.pow_card_sub_one_eq_one hp hcoprime).pow j).mul_left m
      _ = m := by rw [one_pow, mul_one]

theorem isCoprime_of_primes {p q : ℤ} (hp : p.toNat.Prime) (hq : q.toNat.Prime) (hne : p ≠ q) :
    IsCoprime p q := by
  have hp0 : 0 ≤ p := by have := hp.pos; omega
  have hq0 : 0 ≤ q := by have := hq.pos; omega
  lift p to ℕ using hp0
  lift q to ℕ using hq0
  exact Nat.isCoprime_iff_coprime.mpr
    ((Nat.coprime_primes hp hq).mpr fun h => hne (congrArg Nat.cast h))

/-- A number below the product of two coprime moduli is known by its two remainders. -/
theorem eq_of_modEq_both {p q x y : ℤ} (hcoprime : IsCoprime p q) (hx : 0 ≤ x) (hxlt : x < p * q)
    (hy : 0 ≤ y) (hylt : y < p * q) (hp : x ≡ y [ZMOD p]) (hq : x ≡ y [ZMOD q]) : x = y := by
  have hdvd : p * q ∣ y - x := hcoprime.mul_dvd hp.dvd hq.dvd
  have hmod : x ≡ y [ZMOD p * q] := Int.modEq_of_dvd hdvd
  rwa [Int.ModEq, Int.emod_eq_of_lt hx hxlt, Int.emod_eq_of_lt hy hylt] at hmod

theorem checkOperand_eq_ok {n m : Integer} (hn : 1 < n.toInt) (hm : 0 ≤ m.toInt)
    (hlt : m.toInt < n.toInt) : checkOperand n m = .ok () := by
  have hzero : n.isZero = false := Bool.eq_false_iff.mpr (mt (Integer.isZero_iff n).mp (by omega))
  have hone : n.isOne = false := Bool.eq_false_iff.mpr (mt (Integer.isOne_iff n).mp (by omega))
  have hneg : n.isNegative = false :=
    Bool.eq_false_iff.mpr (mt (Integer.isNegative_iff n).mp (by omega))
  have hmneg : m.isNegative = false :=
    Bool.eq_false_iff.mpr (mt (Integer.isNegative_iff m).mp (by omega))
  have hbelow : decide (m < n) = true := decide_eq_true (Integer.lt_iff.mpr hlt)
  rw [checkOperand, hzero, hone, hneg, hmneg, hbelow]
  rfl

theorem KeyHeader.toNat_publicExponent (h : KeyHeader) :
    (UInt64.ofNat h.publicExponent).toNat = h.publicExponent := by
  rw [publicExponent]
  cases h.version <;> rfl

theorem KeyHeader.publicExponent_ne_zero (h : KeyHeader) : h.publicExponent ≠ 0 := by
  rw [publicExponent]
  cases h.version <;> decide

namespace PublicKey

theorem toInt_e (k : PublicKey) : k.e.toInt = k.header.publicExponent := by
  rw [e, Integer.toInt_ofUInt64, k.header.toNat_publicExponent]

theorem apply_eq_ok (k : PublicKey) {m : Integer} (hn : 1 < k.n.toInt) (hm : 0 ≤ m.toInt)
    (hlt : m.toInt < k.n.toInt) :
    ∃ c, k.apply m = .ok c ∧ c.toInt = m.toInt ^ k.header.publicExponent % k.n.toInt := by
  refine ⟨m.modPow k.e k.n, ?_, ?_⟩
  · rw [apply, checkOperand_eq_ok hn hm hlt]
    rfl
  · have he : k.e.toInt ≠ 0 := by
      rw [toInt_e]
      exact_mod_cast k.header.publicExponent_ne_zero
    rw [Integer.toInt_modPow_of_one_lt m k.e k.n he hn, toInt_e, Int.natAbs_natCast]

end PublicKey

namespace PrivateKey

theorem toInt_e (k : PrivateKey) : k.e.toInt = k.header.publicExponent := k.toPublic.toInt_e

/-- A number below the modulus that is the power of `c` with the exponent `a` to one factor and with
the exponent `b` to the other. -/
structure IsRoot (k : PrivateKey) (c : ℤ) (a b : ℕ) (r : ℤ) : Prop where
  nonneg : 0 ≤ r
  lt : r < k.n.toInt
  modEq_p : r ≡ c ^ a [ZMOD k.p.toInt]
  modEq_q : r ≡ c ^ b [ZMOD k.q.toInt]

theorem isRoot_applyDirect (k : PrivateKey) (h : k.Sound) (c : Integer) :
    k.IsRoot c.toInt k.d.toInt.natAbs k.d.toInt.natAbs (k.applyDirect c).toInt := by
  have hn := h.one_lt_n
  have hvalue : (k.applyDirect c).toInt = c.toInt ^ k.d.toInt.natAbs % k.n.toInt :=
    Integer.toInt_modPow_of_one_lt c k.d k.n h.d_ne_zero hn
  have hmod : (k.applyDirect c).toInt ≡ c.toInt ^ k.d.toInt.natAbs [ZMOD k.n.toInt] := by
    rw [hvalue]
    exact Int.mod_modEq _ _
  refine ⟨?_, ?_, hmod.of_dvd ?_, hmod.of_dvd ?_⟩
  · rw [hvalue]
    exact Int.emod_nonneg _ (by omega)
  · rw [hvalue]
    exact Int.emod_lt_of_pos _ (by omega)
  · rw [h.n_eq]
    exact dvd_mul_right _ _
  · rw [h.n_eq]
    exact dvd_mul_left _ _

theorem toInt_lifts_modEq (p difference : Integer) :
    (difference + lifts p difference * p).toInt ≡ difference.toInt [ZMOD p.toInt] := by
  rw [Integer.toInt_add, Integer.toInt_mul]
  apply Int.modEq_of_dvd
  rw [sub_add_cancel_left]
  exact (dvd_mul_left _ _).neg_right

/-- The power to one factor is that of the whole number. -/
theorem toInt_modPow_mod (c : Integer) {prime exponent : Integer} (hprime : 2 < prime.toInt)
    (hne : exponent.toInt ≠ 0) :
    ((c % prime).modPow exponent prime).toInt =
      c.toInt ^ exponent.toInt.natAbs % prime.toInt := by
  rw [Integer.toInt_modPow_of_one_lt _ _ _ hne (by omega), Integer.toInt_mod c prime (by omega)]
  exact (Int.mod_modEq _ _).pow _

/-- The two powers to the factors are put together by a multiple of the second factor. -/
theorem toInt_applySplit (k : PrivateKey) (h : k.Sound) (hdp : k.dp.toInt ≠ 0)
    (hdq : k.dq.toInt ≠ 0) (c : Integer) :
    (k.applySplit c).toInt =
      (c.toInt ^ k.dp.toInt.natAbs % k.p.toInt - c.toInt ^ k.dq.toInt.natAbs % k.q.toInt) *
        k.qInv.toInt % k.p.toInt * k.q.toInt + c.toInt ^ k.dq.toInt.natAbs % k.q.toInt := by
  have hp := h.two_lt_p
  have hlifted := toInt_lifts_modEq k.p ((c % k.p).modPow k.dp k.p - (c % k.q).modPow k.dq k.q)
  have hfactor := hlifted.mul_right k.qInv.toInt
  rw [Integer.toInt_sub, toInt_modPow_mod c hp hdp, toInt_modPow_mod c h.two_lt_q hdq] at hfactor
  rw [applySplit, Integer.toInt_add, Integer.toInt_mul, Integer.toInt_mod _ _ (by omega),
    Integer.toInt_mul, hfactor, toInt_modPow_mod c h.two_lt_q hdq]

theorem isRoot_applySplit (k : PrivateKey) (h : k.Sound) (hdp : k.dp.toInt ≠ 0)
    (hdq : k.dq.toInt ≠ 0) (hinv : k.qInv.toInt * k.q.toInt ≡ 1 [ZMOD k.p.toInt]) (c : Integer) :
    k.IsRoot c.toInt k.dp.toInt.natAbs k.dq.toInt.natAbs (k.applySplit c).toInt := by
  have hp := h.two_lt_p
  have hq := h.two_lt_q
  rw [toInt_applySplit k h hdp hdq]
  have hP := Int.mod_modEq (c.toInt ^ k.dp.toInt.natAbs) k.p.toInt
  have hQ := Int.mod_modEq (c.toInt ^ k.dq.toInt.natAbs) k.q.toInt
  have hQ_nonneg := Int.emod_nonneg (c.toInt ^ k.dq.toInt.natAbs) (show k.q.toInt ≠ 0 by omega)
  have hQ_lt := Int.emod_lt_of_pos (c.toInt ^ k.dq.toInt.natAbs) (show 0 < k.q.toInt by omega)
  generalize c.toInt ^ k.dp.toInt.natAbs % k.p.toInt = P at hP ⊢
  generalize c.toInt ^ k.dq.toInt.natAbs % k.q.toInt = Q at hQ hQ_nonneg hQ_lt ⊢
  -- the factor of `q` is a remainder to `p`, which keeps the sum below the modulus
  have hfactor_nonneg := Int.emod_nonneg ((P - Q) * k.qInv.toInt) (show k.p.toInt ≠ 0 by omega)
  have hfactor_lt := Int.emod_lt_of_pos ((P - Q) * k.qInv.toInt) (show 0 < k.p.toInt by omega)
  refine ⟨?_, ?_, ?_, ?_⟩
  · exact add_nonneg (mul_nonneg hfactor_nonneg (by omega)) hQ_nonneg
  · rw [h.n_eq]
    nlinarith
  · calc (P - Q) * k.qInv.toInt % k.p.toInt * k.q.toInt + Q
        ≡ (P - Q) * k.qInv.toInt * k.q.toInt + Q [ZMOD k.p.toInt] :=
          ((Int.mod_modEq _ _).mul_right _).add_right _
      _ = (P - Q) * (k.qInv.toInt * k.q.toInt) + Q := by ring
      _ ≡ (P - Q) * 1 + Q [ZMOD k.p.toInt] := (hinv.mul_left _).add_right _
      _ = P := by ring
      _ ≡ c.toInt ^ k.dp.toInt.natAbs [ZMOD k.p.toInt] := hP
  · calc (P - Q) * k.qInv.toInt % k.p.toInt * k.q.toInt + Q
        ≡ 0 + Q [ZMOD k.q.toInt] :=
          (Int.modEq_zero_iff_dvd.mpr (dvd_mul_left _ _)).add_right _
      _ = Q := zero_add _
      _ ≡ c.toInt ^ k.dq.toInt.natAbs [ZMOD k.q.toInt] := hQ

namespace IsRoot

variable {k : PrivateKey} {x c r : ℤ} {a b : ℕ}

/-- Exponents that invert the public one below the factors lead from a power back to its base. -/
theorem eq_base (hr : k.IsRoot c a b r) (h : k.Sound) (hp : k.p.toInt.toNat.Prime)
    (hq : k.q.toInt.toNat.Prime) (ha : k.e.toInt * a ≡ 1 [ZMOD k.p.toInt - 1])
    (hb : k.e.toInt * b ≡ 1 [ZMOD k.q.toInt - 1]) (hx : 0 ≤ x) (hlt : x < k.n.toInt)
    (hc : c = x ^ k.header.publicExponent % k.n.toInt) : r = x := by
  rw [toInt_e] at ha hb
  have hpow (exponent : ℕ) : c ^ exponent ≡ x ^ (k.header.publicExponent * exponent)
      [ZMOD k.n.toInt] := by
    rw [hc, pow_mul]
    exact (Int.mod_modEq _ _).pow _
  have hdvdp : k.p.toInt ∣ k.n.toInt := by rw [h.n_eq]; exact dvd_mul_right _ _
  have hdvdq : k.q.toInt ∣ k.n.toInt := by rw [h.n_eq]; exact dvd_mul_left _ _
  have hlt' := hr.lt
  rw [h.n_eq] at hlt hlt'
  apply eq_of_modEq_both (isCoprime_of_primes hp hq h.q_lt_p.ne') hr.nonneg hlt' hx hlt
  · exact hr.modEq_p.trans (((hpow a).of_dvd hdvdp).trans
      (pow_modEq_self hp h.two_lt_p (by exact_mod_cast ha) x))
  · exact hr.modEq_q.trans (((hpow b).of_dvd hdvdq).trans
      (pow_modEq_self hq h.two_lt_q (by exact_mod_cast hb) x))

/-- The public operation leads from a root back to the number. -/
theorem pow_eq (hr : k.IsRoot c a b r) (h : k.Sound) (hp : k.p.toInt.toNat.Prime)
    (hq : k.q.toInt.toNat.Prime) (ha : k.e.toInt * a ≡ 1 [ZMOD k.p.toInt - 1])
    (hb : k.e.toInt * b ≡ 1 [ZMOD k.q.toInt - 1]) (hc : 0 ≤ c) (hlt : c < k.n.toInt) :
    r ^ k.header.publicExponent % k.n.toInt = c := by
  rw [toInt_e, mul_comm] at ha hb
  have hn := h.one_lt_n
  have hmod := Int.mod_modEq (r ^ k.header.publicExponent) k.n.toInt
  have hnonneg := Int.emod_nonneg (r ^ k.header.publicExponent) (show k.n.toInt ≠ 0 by omega)
  have hbelow := Int.emod_lt_of_pos (r ^ k.header.publicExponent) (show 0 < k.n.toInt by omega)
  have hdvdp : k.p.toInt ∣ k.n.toInt := by rw [h.n_eq]; exact dvd_mul_right _ _
  have hdvdq : k.q.toInt ∣ k.n.toInt := by rw [h.n_eq]; exact dvd_mul_left _ _
  have hp' := (hmod.of_dvd hdvdp).trans (hr.modEq_p.pow k.header.publicExponent)
  have hq' := (hmod.of_dvd hdvdq).trans (hr.modEq_q.pow k.header.publicExponent)
  rw [← pow_mul] at hp' hq'
  rw [h.n_eq] at hlt hbelow hnonneg hp' hq' ⊢
  apply eq_of_modEq_both (isCoprime_of_primes hp hq h.q_lt_p.ne') hnonneg hbelow hc hlt
  · exact hp'.trans (pow_modEq_self hp h.two_lt_p (by exact_mod_cast ha) c)
  · exact hq'.trans (pow_modEq_self hq h.two_lt_q (by exact_mod_cast hb) c)

end IsRoot

theorem inverts_reduced {e d m r : ℤ} (hm : 1 < m) (h : e * d ≡ 1 [ZMOD m]) (hr : r = d % m) :
    r ≠ 0 ∧ e * r.natAbs ≡ 1 [ZMOD m] := by
  have hnonneg : 0 ≤ r := by
    rw [hr]
    exact Int.emod_nonneg _ (by omega)
  have hinverts : e * r ≡ 1 [ZMOD m] := by
    rw [hr]
    exact ((Int.mod_modEq d m).mul_left e).trans h
  refine ⟨?_, by rwa [Int.natAbs_of_nonneg hnonneg]⟩
  intro hzero
  rw [hzero, mul_zero, Int.modEq_iff_dvd, sub_zero] at hinverts
  have := Int.le_of_dvd one_pos hinverts
  omega

section Paths

variable {k : PrivateKey} (h : k.Sound) (hp : k.p.toInt.toNat.Prime) (hq : k.q.toInt.toNat.Prime)
include h

theorem inverts_natAbs (hd : 0 ≤ k.d.toInt) :
    k.e.toInt * k.d.toInt.natAbs ≡ 1 [ZMOD k.p.toInt - 1] ∧
      k.e.toInt * k.d.toInt.natAbs ≡ 1 [ZMOD k.q.toInt - 1] := by
  rw [Int.natAbs_of_nonneg hd]
  exact ⟨h.inverts_p, h.inverts_q⟩

theorem isRoot_applySplit_of_current (hcurrent : k.header.version = .current) (c : Integer) :
    k.IsRoot c.toInt k.dp.toInt.natAbs k.dq.toInt.natAbs (k.applySplit c).toInt ∧
      k.e.toInt * k.dp.toInt.natAbs ≡ 1 [ZMOD k.p.toInt - 1] ∧
      k.e.toInt * k.dq.toInt.natAbs ≡ 1 [ZMOD k.q.toInt - 1] := by
  have hp := h.two_lt_p
  have hq := h.two_lt_q
  obtain ⟨hdp, hdq, hinv⟩ := h.reduced hcurrent
  obtain ⟨hdp0, hdp1⟩ := inverts_reduced (by omega) h.inverts_p hdp
  obtain ⟨hdq0, hdq1⟩ := inverts_reduced (by omega) h.inverts_q hdq
  exact ⟨isRoot_applySplit k h hdp0 hdq0 hinv c, hdp1, hdq1⟩

theorem apply_eq_ok {c : Integer} (hc : 0 ≤ c.toInt) (hlt : c.toInt < k.n.toInt) :
    k.apply c =
      .ok (match k.header.version with
        | .legacy => k.applyDirect c
        | .current => k.applySplit c) := by
  rw [apply, checkOperand_eq_ok h.one_lt_n hc hlt]
  cases k.header.version <;> rfl

theorem exists_isRoot (hd : k.header.version = .legacy → 0 ≤ k.d.toInt) {c : Integer}
    (hc : 0 ≤ c.toInt) (hlt : c.toInt < k.n.toInt) :
    ∃ r a b, k.apply c = .ok r ∧ k.IsRoot c.toInt a b r.toInt ∧
      k.e.toInt * (a : ℕ) ≡ 1 [ZMOD k.p.toInt - 1] ∧
      k.e.toInt * (b : ℕ) ≡ 1 [ZMOD k.q.toInt - 1] := by
  have happly := apply_eq_ok h hc hlt
  cases hversion : k.header.version with
  | legacy =>
    rw [hversion] at happly
    exact ⟨_, _, _, happly, isRoot_applyDirect k h c, inverts_natAbs h (hd hversion)⟩
  | current =>
    rw [hversion] at happly
    exact ⟨_, _, _, happly, isRoot_applySplit_of_current h hversion c⟩

include hp hq

/-- Both ways of the private operation lead back from the public one. -/
theorem applyDirect_eq_base (hd : 0 ≤ k.d.toInt) {x c : Integer} (hx : 0 ≤ x.toInt)
    (hlt : x.toInt < k.n.toInt)
    (hc : c.toInt = x.toInt ^ k.header.publicExponent % k.n.toInt) : k.applyDirect c = x := by
  obtain ⟨ha, hb⟩ := inverts_natAbs h hd
  exact Integer.toInt_inj.mp
    ((isRoot_applyDirect k h c).eq_base h hp hq ha hb hx hlt hc)

theorem applySplit_eq_base (hcurrent : k.header.version = .current) {x c : Integer}
    (hx : 0 ≤ x.toInt) (hlt : x.toInt < k.n.toInt)
    (hc : c.toInt = x.toInt ^ k.header.publicExponent % k.n.toInt) : k.applySplit c = x := by
  obtain ⟨hroot, ha, hb⟩ := isRoot_applySplit_of_current h hcurrent c
  exact Integer.toInt_inj.mp (hroot.eq_base h hp hq ha hb hx hlt hc)

variable (hd : k.header.version = .legacy → 0 ≤ k.d.toInt) {m : Integer} (hm : 0 ≤ m.toInt)
  (hlt : m.toInt < k.n.toInt)
include hd hm hlt

theorem apply_toPublic_apply : ∃ c, k.toPublic.apply m = .ok c ∧ k.apply c = .ok m := by
  have hn := h.one_lt_n
  obtain ⟨c, hpublic, hc⟩ := k.toPublic.apply_eq_ok hn hm hlt
  have hc' : c.toInt = m.toInt ^ k.header.publicExponent % k.n.toInt := hc
  obtain ⟨r, a, b, hr, hroot, ha, hb⟩ := exists_isRoot h hd (c := c)
    (by rw [hc']; exact Int.emod_nonneg _ (by omega))
    (by rw [hc']; exact Int.emod_lt_of_pos _ (by omega))
  obtain rfl : r = m := Integer.toInt_inj.mp (hroot.eq_base h hp hq ha hb hm hlt hc')
  exact ⟨c, hpublic, hr⟩

theorem toPublic_apply_apply : ∃ c, k.apply m = .ok c ∧ k.toPublic.apply c = .ok m := by
  obtain ⟨r, a, b, hr, hroot, ha, hb⟩ := exists_isRoot h hd hm hlt
  obtain ⟨c, hpublic, hc⟩ := k.toPublic.apply_eq_ok h.one_lt_n hroot.nonneg hroot.lt
  obtain rfl : c = m := Integer.toInt_inj.mp
    (hc.trans (hroot.pow_eq h hp hq ha hb hm hlt))
  exact ⟨r, hr, hpublic⟩

end Paths

/-- Either operation of the pair undoes the other on every number below the modulus. -/
def RoundTrips (k : PrivateKey) : Prop :=
  ∀ m : Integer, 0 ≤ m.toInt → m.toInt < k.n.toInt →
    (k.toPublic.apply m >>= k.apply) = .ok m ∧ (k.apply m >>= k.toPublic.apply) = .ok m

theorem two_pow_not_modEq {p e d : ℤ} {a : ℕ} (hp : p.toNat.Prime) (h4 : 4 < p)
    (hd : d < 0) (h : e * d ≡ 1 [ZMOD p - 1]) (ha : (a : ℤ) = e * d.natAbs) :
    ¬ (2 : ℤ) ^ a ≡ 2 [ZMOD p] := by
  intro htwo
  have hneg : ((a + 2 : ℕ) : ℤ) ≡ 1 [ZMOD p - 1] := by
    have hvalue : ((a + 2 : ℕ) : ℤ) = -(e * d) + 2 := by
      rw [Nat.cast_add, ha, Int.ofNat_natAbs_of_nonpos hd.le]
      push_cast
      ring
    rw [hvalue]
    exact h.neg.add_right 2
  -- so that `2 ^ a * 2 ^ 2` is 2, and 8 is too if `2 ^ a` is 2
  have hself := pow_modEq_self hp (by omega) hneg 2
  have hsix : (2 : ℤ) * 2 ^ 2 ≡ 2 [ZMOD p] := by
    refine Int.ModEq.trans ?_ hself
    rw [pow_add]
    exact (htwo.symm).mul_right _
  have hdvd : p ∣ 6 := by
    have := hsix.symm.dvd
    norm_num at this
    exact this
  have hle := Int.le_of_dvd (by norm_num) hdvd
  -- no prime above four divides six
  interval_cases p
  · revert hdvd
    decide
  · revert hp
    decide

theorem not_roundTrips (k : PrivateKey) (h : k.Sound) (hp : k.p.toInt.toNat.Prime)
    (hlegacy : k.header.version = .legacy) (hd : k.d.toInt < 0) : ¬ k.RoundTrips := by
  intro hround
  have hq := h.two_lt_q
  have hlt := h.q_lt_p
  have hodd := h.p_odd
  have hn : 4 < k.n.toInt := by
    rw [h.n_eq]
    nlinarith
  have htwo : (Integer.ofUInt64 2).toInt = 2 := Integer.toInt_ofUInt64 2
  obtain ⟨c, hpublic, hc⟩ := k.toPublic.apply_eq_ok h.one_lt_n (m := .ofUInt64 2) (by omega)
    (by change (Integer.ofUInt64 2).toInt < k.n.toInt; omega)
  have hc' : c.toInt = 2 ^ k.header.publicExponent % k.n.toInt := by rw [hc, htwo]; rfl
  have happly := apply_eq_ok h (c := c)
    (by rw [hc']; exact Int.emod_nonneg _ (by omega))
    (by rw [hc']; exact Int.emod_lt_of_pos _ (by omega))
  rw [hlegacy] at happly
  have hback := (hround (.ofUInt64 2) (by omega) (by omega)).1
  rw [hpublic] at hback
  have hdirect : k.applyDirect c = .ofUInt64 2 := Except.ok.inj (happly.symm.trans hback)
  -- modulo `p` the direct way raises 2 to the product of the two exponents
  have hroot := (isRoot_applyDirect k h c).modEq_p
  have hdvdp : k.p.toInt ∣ k.n.toInt := by rw [h.n_eq]; exact dvd_mul_right _ _
  have hpow : c.toInt ^ k.d.toInt.natAbs ≡ 2 ^ (k.header.publicExponent * k.d.toInt.natAbs)
      [ZMOD k.p.toInt] := by
    rw [hc', pow_mul]
    exact ((Int.mod_modEq _ _).of_dvd hdvdp).pow _
  rw [hdirect, htwo] at hroot
  exact two_pow_not_modEq hp (by omega) hd h.inverts_p (by push_cast; rw [toInt_e])
    (hroot.trans hpow).symm

/-- The two operations of a checked key with prime factors undo each other, except for a legacy key
with a negative exponent. -/
theorem roundTrips_iff {header : KeyHeader} {n d p q dp dq qInv : Integer} {k : PrivateKey}
    (h : ofParts header n d p q dp dq qInv = .ok k) (hp : k.p.toInt.toNat.Prime)
    (hq : k.q.toInt.toNat.Prime) :
    k.RoundTrips ↔ (k.header.version = .legacy → 0 ≤ k.d.toInt) := by
  have hsound := ofParts_eq_ok h
  constructor
  · intro hround hlegacy
    by_contra hneg
    exact not_roundTrips k hsound hp hlegacy (by omega) hround
  · intro hd m hm hlt
    obtain ⟨c, hpublic, hprivate⟩ := apply_toPublic_apply hsound hp hq hd hm hlt
    obtain ⟨c', hprivate', hpublic'⟩ := toPublic_apply_apply hsound hp hq hd hm hlt
    rw [hpublic, hprivate']
    exact ⟨hprivate, hpublic'⟩

def textbookHeader (version : Version) : KeyHeader :=
  .ofAlias version 512 1 ⟨0, 0⟩ ⟨1, 0⟩ [] (by cases version <;> decide)

/-- The key of the factors 61 and 53 with a private exponent of choice. -/
def textbook (version : Version) (d : Int64) : PrivateKey :=
  { header := textbookHeader version
    n := .ofUInt64 3233
    d := .ofInt64 d
    p := .ofUInt64 61
    q := .ofUInt64 53
    dp := .ofUInt64 53
    dq := .ofUInt64 49
    qInv := .ofUInt64 38 }

theorem ofParts_textbook (version : Version) (d : Int64) (h : (textbook version d).isSound = true) :
    ofParts (textbookHeader version) (.ofUInt64 3233) (.ofInt64 d) (.ofUInt64 61) (.ofUInt64 53)
      (.ofUInt64 53) (.ofUInt64 49) (.ofUInt64 38) = .ok (textbook version d) := by
  change (require (textbook version d).isSound .invalidParameter >>= fun _ => _) = _
  rw [h]
  rfl

theorem textbook_primes (version : Version) (d : Int64) :
    (textbook version d).p.toInt.toNat.Prime ∧ (textbook version d).q.toInt.toNat.Prime := by
  have hp : (textbook version d).p.toInt.toNat = 61 := rfl
  have hq : (textbook version d).q.toInt.toNat = 53 := rfl
  rw [hp, hq]
  norm_num

/-- A current key works with the negative exponent -367, which it never uses itself. -/
theorem roundTrips_textbook_current :
    ofParts (textbookHeader .current) (.ofUInt64 3233) (.ofInt64 (-367)) (.ofUInt64 61)
        (.ofUInt64 53) (.ofUInt64 53) (.ofUInt64 49) (.ofUInt64 38) =
      .ok (textbook .current (-367)) ∧
    (textbook .current (-367)).RoundTrips := by
  have haccepted := ofParts_textbook .current (-367) (by decide +kernel)
  obtain ⟨hp, hq⟩ := textbook_primes .current (-367)
  exact ⟨haccepted, (roundTrips_iff haccepted hp hq).mpr nofun⟩

/-- The legacy key with the same exponent is accepted, and 65 comes back as 1144. -/
theorem textbook_legacy_fails :
    ofParts (textbookHeader .legacy) (.ofUInt64 3233) (.ofInt64 (-367)) (.ofUInt64 61)
        (.ofUInt64 53) (.ofUInt64 53) (.ofUInt64 49) (.ofUInt64 38) =
      .ok (textbook .legacy (-367)) ∧
    ((textbook .legacy (-367)).p.toInt.toNat.Prime ∧
      (textbook .legacy (-367)).q.toInt.toNat.Prime) ∧
    (textbook .legacy (-367)).toPublic.apply (.ofUInt64 65) = .ok (.ofUInt64 2790) ∧
    (textbook .legacy (-367)).apply (.ofUInt64 2790) = .ok (.ofUInt64 1144) ∧
    ¬ (textbook .legacy (-367)).RoundTrips := by
  have hpublic : (textbook .legacy (-367)).toPublic.apply (.ofUInt64 65) =
      .ok (.ofUInt64 2790) := by decide +kernel
  have hprivate : (textbook .legacy (-367)).apply (.ofUInt64 2790) =
      .ok (.ofUInt64 1144) := by decide +kernel
  refine ⟨ofParts_textbook .legacy (-367) (by decide +kernel), textbook_primes _ _, hpublic,
    hprivate, ?_⟩
  intro hround
  have hback := (hround (.ofUInt64 65) (by decide +kernel) (by decide +kernel)).1
  rw [hpublic] at hback
  have hsame : (Integer.ofUInt64 1144) = .ofUInt64 65 :=
    Except.ok.inj (hprivate.symm.trans hback)
  revert hsame
  decide +kernel

end PrivateKey
end Signet
