import Mathlib
import Signet.Key.Generate
import Signet.Proofs.Integer.Inverse
import Signet.Proofs.Key.Permutation
import Signet.Proofs.Primality.Search

/-! The key that two numbers of half the size lead to, and its trial run. The relations between the
numbers of the key follow from their sizes, from the sieve and from the inverses alone, and
primality only decides whether the trial run goes well. Main statements: `meets_of_ofPrimes` and
`triedOut_of_primes`. -/
namespace Signet

namespace Primality.Found

variable {bits : ℕ} {p : Integer}

theorem lt_two_pow (h : Found bits p) : p.toInt < 2 ^ bits := by
  have hpos := h.pos
  have hlt := (Integer.bits_le_iff p bits).mp h.bits_eq.le
  zify at hlt
  rwa [abs_of_pos hpos] at hlt

theorem two_pow_le (h : Found (bits + 1) p) : 2 ^ bits ≤ p.toInt := by
  have hpos := h.pos
  by_contra hlt
  have hle : p.toInt.natAbs < 2 ^ bits := by
    zify
    rw [abs_of_pos hpos]
    omega
  have := (Integer.bits_le_iff p bits).mpr hle
  have := h.bits_eq
  omega

end Primality.Found

namespace KeyRequest

theorem exists_bits_eq (r : KeyRequest) : ∃ k, r.bits = 2 ^ (k + 9) ∧ k ≤ 22 := by
  have hmin : 512 ≤ r.bits := r.minKeyBits_le
  have hpow : r.bits = 2 ^ r.bits.log2 := r.isPowerOfTwo
  have hlt : r.bits < 2 ^ 32 := r.header.bits.toNat_lt
  have hlow : 9 ≤ r.bits.log2 := by
    by_contra hsmall
    have := Nat.pow_le_pow_right two_pos (show r.bits.log2 ≤ 8 by omega)
    omega
  have hhigh : r.bits.log2 < 32 := (Nat.pow_lt_pow_iff_right (by norm_num)).mp (hpow ▸ hlt)
  exact ⟨r.bits.log2 - 9, by rw [Nat.sub_add_cancel hlow, ← hpow], by omega⟩

theorem sixteen_dvd (r : KeyRequest) : r.bits % 16 = 0 := by
  obtain ⟨k, hk, -⟩ := r.exists_bits_eq
  rw [hk, show k + 9 = (k + 5) + 4 by ring, pow_add]
  simp

theorem half_valid (r : KeyRequest) :
    Primality.minPrimeBits ≤ r.bits / 2 ∧ r.bits / 2 % 8 = 0 ∧ r.bits / 2 ≤ Integer.maxBits ∧
      r.bits / 2 / 8 = r.bits / 16 := by
  obtain ⟨k, hk, hle⟩ := r.exists_bits_eq
  have hsixteen := r.sixteen_dvd
  have hmin : 512 ≤ r.bits := r.minKeyBits_le
  have hmax : r.bits ≤ 2 ^ 31 := by
    rw [hk]
    exact Nat.pow_le_pow_right two_pos (by omega)
  rw [Primality.minPrimeBits, Integer.maxBits]
  omega

end KeyRequest

theorem toInt_publicExponent :
    (Integer.ofUInt64 (UInt64.ofNat Primality.publicExponent)).toInt = 65537 :=
  Integer.toInt_ofUInt64 _

section Pair

variable {half : ℕ} {p q : Integer} (hp : Primality.Found half p) (hq : Primality.Found half q)
include hp hq

/-- The sieve leaves only numbers for which the public exponent can be inverted. -/
theorem publicExponent_coprime :
    Int.gcd 65537 ((p.toInt - 1) * (q.toInt - 1)) = 1 := by
  have hprime : Prime (65537 : ℤ) := Int.prime_iff_natAbs_prime.mpr (by norm_num)
  have hnot (x : Integer) (hx : Primality.Found half x) : ¬ (65537 : ℤ) ∣ x.toInt - 1 := by
    intro hdvd
    exact hx.not_above_multiple (Int.emod_eq_zero_of_dvd hdvd)
  rw [← Int.isCoprime_iff_gcd_eq_one, hprime.coprime_iff_not_dvd]
  intro hdvd
  rcases hprime.dvd_or_dvd hdvd with h | h
  · exact hnot p hp h
  · exact hnot q hq h

variable (hhalf : 256 ≤ half)
include hhalf

theorem two_pow_255_le : 2 ^ 255 ≤ p.toInt ∧ 2 ^ 255 ≤ q.toInt := by
  obtain ⟨j, rfl⟩ := Nat.exists_eq_add_of_le hhalf
  have hle : (2 : ℤ) ^ 255 ≤ 2 ^ (255 + j) := pow_le_pow_right₀ one_le_two (by omega)
  have hsize : 256 + j = 255 + j + 1 := by omega
  rw [hsize] at hp hq
  exact ⟨hle.trans hp.two_pow_le, hle.trans hq.two_pow_le⟩

theorem exists_modInverse_publicExponent :
    ∃ d, (Integer.ofUInt64 (UInt64.ofNat Primality.publicExponent)).modInverse
        ((p - 1) * (q - 1)) = .ok d := by
  obtain ⟨hpl, hql⟩ := two_pow_255_le hp hq hhalf
  have hvalue : ((p - 1) * (q - 1)).toInt = (p.toInt - 1) * (q.toInt - 1) := by
    rw [Integer.toInt_mul, Integer.toInt_sub_one, Integer.toInt_sub_one]
  obtain ⟨d, hd, -⟩ := Integer.modInverse_of_coprime
    (.ofUInt64 (UInt64.ofNat Primality.publicExponent)) ((p - 1) * (q - 1))
    (by rw [toInt_publicExponent]; norm_num)
    (by rw [toInt_publicExponent, hvalue]; nlinarith)
    (by rw [toInt_publicExponent, hvalue]; exact publicExponent_coprime hp hq)
  exact ⟨d, hd⟩

/-- The product of two numbers of half the size takes the whole size or one digit less. -/
theorem bits_mul : (p * q).bits = 2 * half - 1 ∨ (p * q).bits = 2 * half := by
  have hpq : (p * q).toInt = p.toInt * q.toInt := Integer.toInt_mul p q
  obtain ⟨j, rfl⟩ : ∃ j, half = j + 1 := ⟨half - 1, by omega⟩
  have hpl := hp.two_pow_le
  have hql := hq.two_pow_le
  have hpu := hp.lt_two_pow
  have hqu := hq.lt_two_pow
  have hpos : (0 : ℤ) < 2 ^ j := by positivity
  have habs : ((p * q).toInt.natAbs : ℤ) = p.toInt * q.toInt := by
    rw [hpq, Int.natAbs_of_nonneg (mul_nonneg hp.pos.le hq.pos.le)]
  have hupper : (p * q).bits ≤ 2 * (j + 1) := by
    rw [Integer.bits_le_iff, ← Int.ofNat_lt, habs]
    push_cast
    calc p.toInt * q.toInt < 2 ^ (j + 1) * 2 ^ (j + 1) :=
          mul_lt_mul'' hpu hqu hp.pos.le hq.pos.le
      _ = 2 ^ (2 * (j + 1)) := by rw [two_mul, pow_add _ (j + 1) (j + 1)]
  have hlower : ¬ (p * q).bits ≤ 2 * j := by
    rw [Integer.bits_le_iff, ← Int.ofNat_lt, habs, not_lt]
    push_cast
    calc (2 : ℤ) ^ (2 * j) = 2 ^ j * 2 ^ j := by rw [two_mul, pow_add]
      _ ≤ p.toInt * q.toInt := mul_le_mul hpl hql hpos.le hp.pos.le
  omega

end Pair

namespace PrivateKey

/-- The lowest digits of the two factors are only taken off for a while. -/
theorem ofPrimes_eq (header : KeyHeader) {p q : Integer} (hp : 0 < p.toInt) (hq : 0 < q.toInt)
    (hpodd : p.toInt % 2 = 1) (hqodd : q.toInt % 2 = 1) :
    ofPrimes header p q = (do
      let qInv ← q.modInverse p
      let d ← (Integer.ofUInt64 (UInt64.ofNat Primality.publicExponent)).modInverse
        ((p - 1) * (q - 1))
      return { header, n := p * q, d, p, q, dp := d % (p - 1), dq := d % (q - 1), qInv }) := by
  -- setting the lowest digit of the even number below gives the number back
  have hrestore (x : Integer) (hx : 0 < x.toInt) (hodd : x.toInt % 2 = 1) :
      (x - 1).setBit 0 true = .ok x := by
    have hvalue := Integer.toInt_sub_one x
    rw [Integer.setBit_zero_true (by omega) (by omega)]
    congr 1
    rw [← Integer.toInt_inj, Integer.toInt_add, hvalue, Integer.toInt_one, sub_add_cancel]
  rw [ofPrimes]
  simp only [Integer.setBit_zero_false hp hpodd, Integer.setBit_zero_false hq hqodd, ok_bind,
    hrestore p hp hpodd, hrestore q hq hqodd]

theorem exists_of_ofPrimes_eq_ok {header : KeyHeader} {p q : Integer} {key : PrivateKey}
    (hp : 0 < p.toInt) (hq : 0 < q.toInt) (hpodd : p.toInt % 2 = 1) (hqodd : q.toInt % 2 = 1)
    (h : ofPrimes header p q = .ok key) :
    ∃ qInv d, q.modInverse p = .ok qInv ∧
      (Integer.ofUInt64 (UInt64.ofNat Primality.publicExponent)).modInverse
        ((p - 1) * (q - 1)) = .ok d ∧
      key = { header, n := p * q, d, p, q, dp := d % (p - 1), dq := d % (q - 1), qInv } := by
  rw [ofPrimes_eq header hp hq hpodd hqodd, bind_eq_ok_iff] at h
  obtain ⟨qInv, hqInv, h⟩ := h
  rw [bind_eq_ok_iff] at h
  obtain ⟨d, hd, h⟩ := h
  exact ⟨qInv, d, hqInv, hd, (Except.ok.inj h).symm⟩

/-- The number of the trial run came back by both ways of the private operation. -/
def TriedOut (k : PrivateKey) (seed : Bytes) : Prop :=
  ∃ x c, Integer.load seed selfTestBits = .ok x ∧ k.toPublic.apply x = .ok c ∧
    k.applyDirect c = x ∧ k.applySplit c = x

theorem selfTest_value (k : PrivateKey) (seed : Bytes) :
    (k.selfTest seed).value = (do
      let x ← Integer.load seed selfTestBits
      let c ← k.toPublic.apply x
      if k.applyDirect c == x && k.applySplit c == x then .ok () else .error .malformed) := by
  rw [selfTest, Monitored.value, Monitored.value_bind]
  congr 1
  funext x
  rw [Monitored.value_bind]
  congr 1
  funext c
  split <;> rfl

section SelfTest

variable {k : PrivateKey} {seed : Bytes}

/-- The trial run goes well exactly when the number came back. -/
theorem selfTest_value_eq_ok_iff : (k.selfTest seed).value = .ok () ↔ k.TriedOut seed := by
  rw [selfTest_value, bind_eq_ok_iff]
  constructor
  · rintro ⟨x, hload, h⟩
    obtain ⟨c, happly, h⟩ := bind_eq_ok_iff.mp h
    split at h
    next hback =>
      rw [Bool.and_eq_true, beq_iff_eq, beq_iff_eq] at hback
      exact ⟨x, c, hload, happly, hback⟩
    · cases h
  · rintro ⟨x, c, hload, happly, hdirect, hsplit⟩
    refine ⟨x, hload, bind_eq_ok_iff.mpr ⟨c, happly, ?_⟩⟩
    rw [hdirect, hsplit, beq_self_eq_true]
    rfl

variable {x c : Integer} (hload : Integer.load seed selfTestBits = .ok x)
  (happly : k.toPublic.apply x = .ok c)
include hload happly

theorem triedOut_iff : k.TriedOut seed ↔ k.applyDirect c = x ∧ k.applySplit c = x := by
  constructor
  · rintro ⟨x', c', hload', happly', hback⟩
    cases hload.symm.trans hload'
    cases happly.symm.trans happly'
    exact hback
  · exact fun hback => ⟨x, c, hload, happly, hback⟩

/-- A key that there is a number for is refused exactly when one of the two ways does not lead back
to the number. -/
theorem selfTest_value_eq_malformed_iff :
    (k.selfTest seed).value = .error .malformed ↔ k.applyDirect c ≠ x ∨ k.applySplit c ≠ x := by
  rw [← not_and_or, ← triedOut_iff hload happly, ← selfTest_value_eq_ok_iff, selfTest_value, hload,
    ok_bind, happly, ok_bind]
  split <;> simp

end SelfTest

end PrivateKey

namespace KeyRequest

/-- What a request promises about the pair it leads to, primes or not. -/
structure Meets (r : KeyRequest) (pub : PublicKey) (priv : PrivateKey) : Prop where
  validate_eq : priv.validate = .ok ()
  q_lt_p : priv.q.toInt < priv.p.toInt
  p_bits : priv.p.bits = r.bits / 2
  q_bits : priv.q.bits = r.bits / 2
  n_eq : priv.n = priv.p * priv.q
  n_bits : priv.n.bits = r.bits - 1 ∨ priv.n.bits = r.bits
  d_pos : 0 < priv.d.toInt
  d_lt : priv.d.toInt < (priv.p.toInt - 1) * (priv.q.toInt - 1)
  inverts : 65537 * priv.d.toInt ≡ 1 [ZMOD (priv.p.toInt - 1) * (priv.q.toInt - 1)]
  dp_eq : priv.dp.toInt = priv.d.toInt % (priv.p.toInt - 1)
  dq_eq : priv.dq.toInt = priv.d.toInt % (priv.q.toInt - 1)
  qInv_pos : 0 < priv.qInv.toInt
  qInv_lt : priv.qInv.toInt < priv.p.toInt
  qInv_inverts : priv.qInv.toInt * priv.q.toInt ≡ 1 [ZMOD priv.p.toInt]
  header_eq : priv.header = r.header
  public_eq : pub = priv.toPublic

section OfPrimes

variable {r : KeyRequest} {p q : Integer} (hp : Primality.Found (r.bits / 2) p)
  (hq : Primality.Found (r.bits / 2) q) (hlt : q.toInt < p.toInt)
include hp hq hlt

theorem ofPrimes_eq_ok (hgcd : Int.gcd q.toInt p.toInt = 1) :
    ∃ key, PrivateKey.ofPrimes r.header p q = .ok key := by
  obtain ⟨qInv, hqInv, -⟩ := Integer.modInverse_of_coprime q p hq.pos hlt hgcd
  obtain ⟨d, hd⟩ := exists_modInverse_publicExponent hp hq r.half_valid.1
  rw [PrivateKey.ofPrimes_eq r.header hp.pos hq.pos hp.odd hq.odd, hqInv, ok_bind, hd]
  exact ⟨_, rfl⟩

theorem ofPrimes_eq_error (hgcd : Int.gcd q.toInt p.toInt ≠ 1) :
    PrivateKey.ofPrimes r.header p q = .error .notInvertible := by
  rw [PrivateKey.ofPrimes_eq r.header hp.pos hq.pos hp.odd hq.odd,
    Integer.modInverse_of_not_coprime q p hq.pos hlt hgcd, error_bind]

theorem meets_of_ofPrimes {key : PrivateKey} (h : PrivateKey.ofPrimes r.header p q = .ok key) :
    r.Meets key.toPublic key ∧ key.p = p ∧ key.q = q := by
  obtain ⟨hpl, hql⟩ := two_pow_255_le hp hq r.half_valid.1
  obtain ⟨qInv, d, hqInv, hd, rfl⟩ :=
    PrivateKey.exists_of_ofPrimes_eq_ok hp.pos hq.pos hp.odd hq.odd h
  obtain ⟨-, -, hqInv_pos, hqInv_lt, hqInv_mod⟩ := Integer.modInverse_eq_ok hqInv
  obtain ⟨-, -, hd_pos, hd_lt, hd_mod⟩ := Integer.modInverse_eq_ok hd
  rw [toInt_publicExponent] at hd_mod
  rw [Integer.toInt_mul, Integer.toInt_sub_one, Integer.toInt_sub_one] at hd_lt hd_mod
  rw [mul_comm] at hqInv_mod
  -- what the key stores are least remainders, as validation wants them
  have hreduced (prime : Integer) (hprime : 2 ^ 255 ≤ prime.toInt) :
      (d % (prime - 1)).toInt = d.toInt % (prime.toInt - 1) := by
    rw [Integer.toInt_mod _ _ (by rw [Integer.toInt_sub_one]; omega), Integer.toInt_sub_one]
  -- the two halves make up the whole size again
  have hsize : 2 * (r.bits / 2) = r.bits := by
    have := r.sixteen_dvd
    omega
  have hn_bits := bits_mul hp hq r.half_valid.1
  rw [hsize] at hn_bits
  have he (x : ℤ) (hx : 65537 * d.toInt ≡ 1 [ZMOD x]) :
      (Integer.ofUInt64 (UInt64.ofNat r.header.publicExponent)).toInt * d.toInt ≡
        1 [ZMOD x] := by
    rw [Integer.toInt_ofUInt64, r.header.toNat_publicExponent, KeyHeader.publicExponent,
      r.isCurrent]
    exact hx
  refine ⟨⟨?_, hlt, hp.bits_eq, hq.bits_eq, rfl, hn_bits, hd_pos, hd_lt, hd_mod, hreduced p hpl,
    hreduced q hql, hqInv_pos, hqInv_lt, hqInv_mod, rfl, rfl⟩, rfl, rfl⟩
  rw [PrivateKey.validate_eq_ok_iff]
  exact
    { minKeyBits_le := r.minKeyBits_le
      n_bits_le := by
        change (p * q).bits ≤ r.bits
        omega
      n_eq := Integer.toInt_mul p q
      one_lt_q := by
        change 1 < q.toInt
        omega
      q_lt_p := hlt
      p_odd := hp.odd
      q_odd := hq.odd
      inverts_p := he _ (hd_mod.of_dvd (dvd_mul_right _ _))
      inverts_q := he _ (hd_mod.of_dvd (dvd_mul_left _ _))
      reduced := fun _ => ⟨hreduced p hpl, hreduced q hql, hqInv_mod⟩ }

end OfPrimes

namespace Meets

variable {r : KeyRequest} {pub : PublicKey} {priv : PrivateKey} (h : r.Meets pub priv)
include h

theorem sound : priv.Sound := (PrivateKey.validate_eq_ok_iff priv).mp h.validate_eq

theorem current : priv.header.version = .current := by
  rw [h.header_eq]
  exact r.isCurrent

/-- The modulus may be one digit short, but no more. -/
theorem two_pow_le_n : 2 ^ (r.bits - 2) ≤ priv.n.toInt := by
  have hmin : 512 ≤ r.bits := r.minKeyBits_le
  have hpos := h.sound.one_lt_n
  have hwide : ¬ priv.n.bits ≤ r.bits - 2 := by
    rcases h.n_bits with hbits | hbits
    · omega
    · omega
  rw [Integer.bits_le_iff, ← Int.ofNat_lt, not_lt, Int.natAbs_of_nonneg (by omega)] at hwide
  exact_mod_cast hwide

theorem n_lt_two_pow : priv.n.toInt < 2 ^ priv.header.bits.toNat := h.sound.n_lt_two_pow

/-- There always is a number to try such a key out with, and the public operation takes it. -/
theorem exists_tried {seed : Bytes} (hseed : r.seedLength ≤ seed.length) :
    ∃ x c, Integer.load seed PrivateKey.selfTestBits = .ok x ∧ 0 ≤ x.toInt ∧
      x.toInt < priv.n.toInt ∧ priv.toPublic.apply x = .ok c ∧
      c.toInt = x.toInt ^ priv.header.publicExponent % priv.n.toInt := by
  have hmin : 512 ≤ r.bits := r.minKeyBits_le
  have hlength : PrivateKey.selfTestBits / 8 ≤ seed.length := by
    rw [seedLength] at hseed
    rw [PrivateKey.selfTestBits]
    omega
  have hload : Integer.load seed PrivateKey.selfTestBits =
      .ok (.ofBytes (seed.take (PrivateKey.selfTestBits / 8))) :=
    Integer.load_eq_ok (by decide) (by decide) hlength
  have hx : 0 ≤ (Integer.ofBytes (seed.take (PrivateKey.selfTestBits / 8))).toInt := by
    rw [Integer.toInt_ofBytes]
    exact Int.natCast_nonneg _
  -- 63 bytes stay below the smallest modulus
  have hlt : (Integer.ofBytes (seed.take (PrivateKey.selfTestBits / 8))).toInt < priv.n.toInt := by
    have hbytes := Bytes.ofBigEndian_lt (seed.take (PrivateKey.selfTestBits / 8))
    rw [List.length_take, min_eq_left hlength] at hbytes
    rw [Integer.toInt_ofBytes]
    calc (Bytes.ofBigEndian (seed.take (PrivateKey.selfTestBits / 8)) : ℤ)
        < ((256 ^ (PrivateKey.selfTestBits / 8) : ℕ) : ℤ) := by exact_mod_cast hbytes
      _ = (2 ^ 8) ^ 63 := by push_cast; rfl
      _ = 2 ^ 504 := (pow_mul 2 8 63).symm
      _ ≤ 2 ^ (r.bits - 2) := pow_le_pow_right₀ one_le_two (by omega)
      _ ≤ priv.n.toInt := h.two_pow_le_n
  obtain ⟨c, hpublic, hc⟩ := priv.toPublic.apply_eq_ok h.sound.one_lt_n hx hlt
  exact ⟨_, c, hload, hx, hlt, hpublic, hc⟩

/-- Such a key is refused in one way alone, and exactly when the number does not come back. -/
theorem selfTest_value_eq_malformed_iff {seed : Bytes} (hseed : r.seedLength ≤ seed.length) :
    (priv.selfTest seed).value = .error .malformed ↔ ¬ priv.TriedOut seed := by
  obtain ⟨x, c, hload, -, -, hpublic, -⟩ := h.exists_tried hseed
  rw [PrivateKey.selfTest_value_eq_malformed_iff hload hpublic,
    PrivateKey.triedOut_iff hload hpublic, not_and_or]

theorem triedOut_of_primes (hp : priv.p.toInt.toNat.Prime) (hq : priv.q.toInt.toNat.Prime)
    {seed : Bytes} (hseed : r.seedLength ≤ seed.length) : priv.TriedOut seed := by
  obtain ⟨x, c, hload, hx, hlt, hpublic, hc⟩ := h.exists_tried hseed
  have hdirect : priv.applyDirect c = x :=
    PrivateKey.applyDirect_eq_base h.sound hp hq h.d_pos.le hx hlt hc
  have hsplit : priv.applySplit c = x :=
    PrivateKey.applySplit_eq_base h.sound hp hq h.current hx hlt hc
  exact ⟨x, c, hload, hpublic, hdirect, hsplit⟩

end Meets

end KeyRequest

end Signet
