import Mathlib
import Signet.Proofs.Key.Permutation

/-! The check of a private key, in full. The relations that are computed with floor remainders are
congruences, and whatever is not positive, odd and in order among the factors is refused on the way.
Main statements: `validate_eq_error_iff` and `validate_decides`. -/
namespace Signet.PrivateKey

theorem validate_eq_error_iff (k : PrivateKey) :
    k.validate = .error .invalidParameter ↔ ¬ k.Sound := by
  rw [← isSound_iff, validate, require]
  cases k.isSound <;> decide

/-- A private key passes the check exactly when its size is allowed, its modulus is positive, odd,
no wider than stated and the product of two odd factors above one, the first the larger, and the two
exponents undo each other below both factors; a current key also has to have the least remainders of
the private exponent and an inverse of the second factor to the first. All others are refused for
one reason. -/
theorem validate_decides (k : PrivateKey) :
    let bits := k.header.bits.toNat
    let n := k.n.toInt
    let e : ℤ := k.header.publicExponent
    let d := k.d.toInt
    let p := k.p.toInt
    let q := k.q.toInt
    let consistent := 512 ≤ bits ∧ (0 < n ∧ Odd n ∧ n < 2 ^ bits) ∧
      n = p * q ∧ (1 < q ∧ q < p) ∧ (Odd p ∧ Odd q) ∧
      e * d ≡ 1 [ZMOD p - 1] ∧ e * d ≡ 1 [ZMOD q - 1] ∧
      (k.header.version = .current →
        (k.dp.toInt = d % (p - 1) ∧ 0 ≤ k.dp.toInt ∧ k.dp.toInt < p - 1) ∧
        (k.dq.toInt = d % (q - 1) ∧ 0 ≤ k.dq.toInt ∧ k.dq.toInt < q - 1) ∧
        k.qInv.toInt * q ≡ 1 [ZMOD p])
    (k.validate = .ok () ↔ consistent) ∧
      (k.validate = .error .invalidParameter ↔ ¬ consistent) := by
  intro bits n e d p q consistent
  have he : k.e.toInt = e := k.toInt_e
  have hsound : k.Sound ↔ consistent := by
    constructor
    · intro h
      refine ⟨h.minKeyBits_le, ⟨one_pos.trans h.one_lt_n, h.n_odd, h.n_lt_two_pow⟩, h.n_eq,
        ⟨h.one_lt_q, h.q_lt_p⟩, ⟨Int.odd_iff.mpr h.p_odd, Int.odd_iff.mpr h.q_odd⟩,
        he ▸ h.inverts_p, he ▸ h.inverts_q, ?_⟩
      intro hcurrent
      obtain ⟨hdp, hdq, hinverse⟩ := h.reduced hcurrent
      obtain ⟨hdp_range, hdq_range⟩ := h.reduced_range hcurrent
      exact ⟨⟨hdp, hdp_range⟩, ⟨hdq, hdq_range⟩, hinverse⟩
    · rintro ⟨hmin, ⟨hpos, -, hlt⟩, hn, ⟨hone, horder⟩, ⟨hp, hq⟩, hinvp, hinvq, hreduced⟩
      refine ⟨hmin, ?_, hn, hone, horder, Int.odd_iff.mp hp, Int.odd_iff.mp hq,
        he.symm ▸ hinvp, he.symm ▸ hinvq, ?_⟩
      · rw [Integer.bits_le_iff]
        zify
        rwa [abs_of_pos hpos]
      · intro hcurrent
        obtain ⟨⟨hdp, -⟩, ⟨hdq, -⟩, hinverse⟩ := hreduced hcurrent
        exact ⟨hdp, hdq, hinverse⟩
  rw [validate_eq_ok_iff, validate_eq_error_iff, hsound]
  exact ⟨Iff.rfl, Iff.rfl⟩

/-- The textbook key passes. With both factors below zero they have the same product and are in
order, and there is an exponent with both congruences, but no remainder to a modulus below zero is
one. -/
theorem validate_decides_sample :
    let k := textbook .current 2753
    let negated : PrivateKey :=
      { textbook .current 827 with p := .ofInt64 (-53), q := .ofInt64 (-61) }
    k.validate = .ok () ∧ negated.validate = .error .invalidParameter ∧
      (negated.hasFactors = true ∧ negated.header.allowsModulus negated.n = true) ∧
      negated.e.toInt * negated.d.toInt ≡ 1 [ZMOD negated.p.toInt - 1] ∧
      negated.e.toInt * negated.d.toInt ≡ 1 [ZMOD negated.q.toInt - 1] := by
  intro k negated
  refine ⟨(validate_decides k).1.mpr (by decide +kernel), (validate_decides negated).2.mpr ?_,
    by decide +kernel, by decide +kernel, by decide +kernel⟩
  rintro ⟨-, -, -, ⟨hone, -⟩, -⟩
  exact absurd hone (by decide +kernel)

end Signet.PrivateKey
