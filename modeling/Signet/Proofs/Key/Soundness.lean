import Mathlib
import Signet.Integer.Lemmas
import Signet.Key.Basic

/-! The check of a private key in terms of numbers. Nothing in it asks for positive factors, but a
remainder of one leaves no other possibility. Main statement: `isSound_iff`. -/
namespace Signet

namespace Integer

theorem toInt_sub_one (x : Integer) : (x - 1).toInt = x.toInt - 1 := by
  rw [toInt_sub, toInt_one]

/-- A floor remainder can be one only for a modulus above one. -/
theorem mod_isOne_iff (a b : Integer) :
    (a % b).isOne = true ↔ 1 < b.toInt ∧ a.toInt ≡ 1 [ZMOD b.toInt] := by
  rw [isOne_iff]
  rcases lt_trichotomy b.toInt 0 with hb | hb | hb
  · have hmod : (a % b).toInt = a.toInt.fmod b.toInt := (toInt_divMod a b hb.ne).2
    have hfmod : a.toInt.fmod b.toInt ≤ 0 := by
      have h := Int.fmod_nonneg_of_pos (-a.toInt) (show 0 < -b.toInt by omega)
      rw [Int.neg_fmod_neg] at h
      omega
    constructor
    · intro h
      omega
    · rintro ⟨h, -⟩
      omega
  · have hmod : (a % b).toInt = 0 := by
      change (divMod a b).2.toInt = 0
      rw [divMod, (isZero_iff b).mpr hb, Bool.or_true, if_pos rfl, toInt_zero]
    constructor
    · intro h
      omega
    · rintro ⟨h, -⟩
      omega
  · rw [toInt_mod a b hb]
    constructor
    · intro h
      have hlt := Int.emod_lt_of_pos a.toInt hb
      exact ⟨by omega, by rw [Int.ModEq, h, Int.emod_eq_of_lt (by omega) (by omega)]⟩
    · rintro ⟨hone, h⟩
      rw [h, Int.emod_eq_of_lt (by omega) hone]

end Integer

namespace PrivateKey

/-- The numbers of a private key belong together. -/
structure Sound (k : PrivateKey) : Prop where
  minKeyBits_le : minKeyBits ≤ k.header.bits.toNat
  n_bits_le : k.n.bits ≤ k.header.bits.toNat
  n_eq : k.n.toInt = k.p.toInt * k.q.toInt
  one_lt_q : 1 < k.q.toInt
  q_lt_p : k.q.toInt < k.p.toInt
  p_odd : k.p.toInt % 2 = 1
  q_odd : k.q.toInt % 2 = 1
  inverts_p : k.e.toInt * k.d.toInt ≡ 1 [ZMOD k.p.toInt - 1]
  inverts_q : k.e.toInt * k.d.toInt ≡ 1 [ZMOD k.q.toInt - 1]
  reduced : k.header.version = .current →
    k.dp.toInt = k.d.toInt % (k.p.toInt - 1) ∧ k.dq.toInt = k.d.toInt % (k.q.toInt - 1) ∧
      k.qInv.toInt * k.q.toInt ≡ 1 [ZMOD k.p.toInt]

namespace Sound

variable {k : PrivateKey}

theorem two_lt_q (h : k.Sound) : 2 < k.q.toInt := by
  have := h.one_lt_q
  have := h.q_odd
  omega

theorem two_lt_p (h : k.Sound) : 2 < k.p.toInt := h.two_lt_q.trans h.q_lt_p

theorem one_lt_n (h : k.Sound) : 1 < k.n.toInt := by
  have := h.two_lt_q
  have := h.two_lt_p
  rw [h.n_eq]
  nlinarith

theorem n_odd (h : k.Sound) : Odd k.n.toInt := by
  rw [h.n_eq]
  exact (Int.odd_iff.mpr h.p_odd).mul (Int.odd_iff.mpr h.q_odd)

theorem n_lt_two_pow (h : k.Sound) : k.n.toInt < 2 ^ k.header.bits.toNat := by
  have hpos := h.one_lt_n
  have hwidth := (Integer.bits_le_iff _ _).mp h.n_bits_le
  zify at hwidth
  rwa [abs_of_pos (by omega)] at hwidth

theorem reduced_range (h : k.Sound) (hcurrent : k.header.version = .current) :
    (0 ≤ k.dp.toInt ∧ k.dp.toInt < k.p.toInt - 1) ∧
      (0 ≤ k.dq.toInt ∧ k.dq.toInt < k.q.toInt - 1) := by
  obtain ⟨hdp, hdq, -⟩ := h.reduced hcurrent
  have hp := h.two_lt_p
  have hq := h.two_lt_q
  rw [hdp, hdq]
  exact ⟨⟨Int.emod_nonneg _ (by omega), Int.emod_lt_of_pos _ (by omega)⟩,
    Int.emod_nonneg _ (by omega), Int.emod_lt_of_pos _ (by omega)⟩

theorem d_ne_zero (h : k.Sound) : k.d.toInt ≠ 0 := by
  intro hzero
  have hdvd := h.inverts_p.dvd
  rw [hzero, mul_zero, sub_zero] at hdvd
  have := Int.le_of_dvd one_pos hdvd
  have := h.two_lt_p
  omega

end Sound

theorem invertsBelow_iff (k : PrivateKey) (prime : Integer) :
    k.invertsBelow prime = true ↔
      1 < prime.toInt - 1 ∧ k.e.toInt * k.d.toInt ≡ 1 [ZMOD prime.toInt - 1] := by
  rw [invertsBelow, Integer.mod_isOne_iff, Integer.toInt_sub_one, Integer.toInt_mul]

theorem hasFactors_iff (k : PrivateKey) :
    k.hasFactors = true ↔
      k.q.toInt ≠ 0 ∧ k.q.toInt < k.p.toInt ∧ k.n.toInt = k.p.toInt * k.q.toInt := by
  rw [hasFactors, Bool.and_eq_true, Bool.and_eq_true, Bool.not_eq_true', Bool.eq_false_iff, Ne,
    Integer.isZero_iff, decide_eq_true_eq, Integer.lt_iff, beq_iff_eq, ← Integer.toInt_inj,
    Integer.toInt_mul, and_assoc]

theorem allowsModulus_iff (h : KeyHeader) (n : Integer) :
    h.allowsModulus n = true ↔
      minKeyBits ≤ h.bits.toNat ∧ 0 ≤ n.toInt ∧ n.toInt % 2 = 1 ∧ n.bits ≤ h.bits.toNat := by
  rw [KeyHeader.allowsModulus, Bool.and_eq_true, Bool.and_eq_true, Bool.and_eq_true,
    decide_eq_true_eq, decide_eq_true_eq, Bool.not_eq_true', Bool.eq_false_iff, Ne,
    Integer.isNegative_iff, Integer.isOdd_iff, not_lt, and_assoc, and_assoc]

theorem hasReducedExponents_iff (k : PrivateKey) (hp : 1 < k.p.toInt) (hq : 1 < k.q.toInt) :
    k.hasReducedExponents = true ↔
      k.dp.toInt = k.d.toInt % (k.p.toInt - 1) ∧ k.dq.toInt = k.d.toInt % (k.q.toInt - 1) ∧
        k.qInv.toInt * k.q.toInt ≡ 1 [ZMOD k.p.toInt] := by
  have hmod (prime : Integer) (h : 1 < prime.toInt) :
      (k.d % (prime - 1)).toInt = k.d.toInt % (prime.toInt - 1) := by
    rw [Integer.toInt_mod _ _ (by rw [Integer.toInt_sub_one]; omega), Integer.toInt_sub_one]
  rw [hasReducedExponents, Bool.and_eq_true, Bool.and_eq_true, beq_iff_eq, beq_iff_eq,
    ← Integer.toInt_inj, ← Integer.toInt_inj, hmod k.p hp, hmod k.q hq, Integer.mod_isOne_iff,
    Integer.toInt_mul, and_assoc]
  constructor
  · rintro ⟨hdp, hdq, -, hinv⟩
    exact ⟨hdp, hdq, hinv⟩
  · rintro ⟨hdp, hdq, hinv⟩
    exact ⟨hdp, hdq, hp, hinv⟩

/-- A key passes the check exactly when its numbers belong together. -/
theorem isSound_iff (k : PrivateKey) : k.isSound = true ↔ k.Sound := by
  have hversion : (k.header.version == .legacy) = true ↔ k.header.version ≠ .current := by
    cases k.header.version <;> decide
  rw [isSound, Bool.and_eq_true, Bool.and_eq_true, Bool.and_eq_true, Bool.and_eq_true,
    Bool.or_eq_true, allowsModulus_iff, hasFactors_iff, invertsBelow_iff, invertsBelow_iff,
    hversion]
  constructor
  · rintro ⟨⟨⟨⟨⟨hmin, -, hodd, hbits⟩, -, hlt, hn⟩, hp, hinvp⟩, hq, hinvq⟩, hreduced⟩
    -- an odd product has odd factors, and a remainder of one leaves no factor below two
    have hfactors := Int.odd_mul.mp (Int.odd_iff.mpr (hn ▸ hodd))
    refine ⟨hmin, hbits, hn, by omega, hlt, Int.odd_iff.mp hfactors.1, Int.odd_iff.mp hfactors.2,
      hinvp, hinvq, ?_⟩
    intro hcurrent
    exact (hasReducedExponents_iff k (by omega) (by omega)).mp
      (hreduced.resolve_left (not_not.mpr hcurrent))
  · intro h
    have hp := h.two_lt_p
    have hq := h.two_lt_q
    have hn := h.one_lt_n
    refine ⟨⟨⟨⟨⟨h.minKeyBits_le, by omega, Int.odd_iff.mp h.n_odd, h.n_bits_le⟩, by omega,
      h.q_lt_p, h.n_eq⟩, by omega, h.inverts_p⟩, by omega, h.inverts_q⟩, ?_⟩
    by_cases hcurrent : k.header.version = .current
    · exact Or.inr ((hasReducedExponents_iff k (by omega) h.one_lt_q).mpr (h.reduced hcurrent))
    · exact Or.inl hcurrent

theorem validate_eq_ok_iff (k : PrivateKey) : k.validate = .ok () ↔ k.Sound := by
  rw [validate, require_eq_ok_iff, isSound_iff]

theorem ofParts_eq_ok {header : KeyHeader} {n d p q dp dq qInv : Integer} {k : PrivateKey}
    (h : ofParts header n d p q dp dq qInv = .ok k) : k.Sound := by
  rw [ofParts, bind_eq_ok_iff] at h
  obtain ⟨u, hvalid, h⟩ := h
  obtain rfl := Except.ok.inj h
  exact (validate_eq_ok_iff _).mp hvalid

theorem ofParts_of_isSound {k : PrivateKey} (h : k.isSound = true) :
    ofParts k.header k.n k.d k.p k.q k.dp k.dq k.qInv = .ok k := by
  change (require k.isSound .invalidParameter >>= fun _ => _) = _
  rw [h]
  rfl

end PrivateKey
end Signet
