import Mathlib
import Signet.Proofs.Key.Lossless

/-! What the operation of a key takes and gives: numbers below the modulus, and so, for a checked
key, numbers of no more binary digits than its header states. Main statements:
`Key.operand_bounds` and `Key.Accepted.apply_lt`. -/
namespace Signet

theorem operand_bounds_of_check {n m : Integer} {u : Unit} (h : checkOperand n m = .ok u) :
    0 ≤ m.toInt ∧ m.toInt < n.toInt := by
  rw [checkOperand, bind_eq_ok_iff] at h
  obtain ⟨-, -, h⟩ := h
  rw [require_eq_ok_iff, Bool.and_eq_true, Bool.not_eq_true', Bool.eq_false_iff, Ne,
    Integer.isNegative_iff, decide_eq_true_eq, Integer.lt_iff] at h
  exact ⟨not_lt.mp h.1, h.2⟩

theorem one_lt_of_check {n m : Integer} {u : Unit} (h : checkOperand n m = .ok u) :
    1 < n.toInt := by
  have hm := operand_bounds_of_check h
  rw [checkOperand, bind_eq_ok_iff] at h
  obtain ⟨_, hn, -⟩ := h
  rw [require_eq_ok_iff, Bool.not_eq_true', Bool.or_eq_false_iff, Bool.or_eq_false_iff] at hn
  have hone : n.toInt ≠ 1 := mt (Integer.isOne_iff n).mpr (Bool.eq_false_iff.mp hn.1.2)
  omega

/-- An operation only gives a result for a number below the modulus. -/
theorem Key.operand_bounds {key : Key} {m c : Integer} (h : key.apply m = .ok c) :
    0 ≤ m.toInt ∧ m.toInt < key.n.toInt := by
  cases key with
  | pub k =>
    rw [Key.apply, PublicKey.apply, bind_eq_ok_iff] at h
    obtain ⟨u, hcheck, -⟩ := h
    exact operand_bounds_of_check hcheck
  | priv k =>
    rw [Key.apply, PrivateKey.apply, bind_eq_ok_iff] at h
    obtain ⟨u, hcheck, -⟩ := h
    exact operand_bounds_of_check hcheck

/-- The result of the public operation is a remainder to the modulus. -/
theorem PublicKey.apply_bounds {k : PublicKey} {m c : Integer} (h : k.apply m = .ok c) :
    0 ≤ c.toInt ∧ c.toInt < k.n.toInt := by
  obtain ⟨hm, hlt⟩ := Key.operand_bounds (show (Key.pub k).apply m = .ok c from h)
  have hn : 1 < k.n.toInt := by
    rw [apply, bind_eq_ok_iff] at h
    obtain ⟨_, hcheck, -⟩ := h
    exact one_lt_of_check hcheck
  obtain ⟨c', happly, hc'⟩ := k.apply_eq_ok hn hm hlt
  obtain rfl := Except.ok.inj (happly.symm.trans h)
  rw [hc']
  exact ⟨Int.emod_nonneg _ (by omega), Int.emod_lt_of_pos _ (by omega)⟩

/-- Both ways of the private operation of a sound key lead below the modulus. -/
theorem PrivateKey.apply_bounds {k : PrivateKey} (hsound : k.Sound) {m c : Integer}
    (h : k.apply m = .ok c) : 0 ≤ c.toInt ∧ c.toInt < k.n.toInt := by
  obtain ⟨hm, hlt⟩ := Key.operand_bounds (show (Key.priv k).apply m = .ok c from h)
  rw [apply_eq_ok hsound hm hlt] at h
  obtain rfl := Except.ok.inj h
  cases hversion : k.header.version with
  | legacy =>
    have hroot := isRoot_applyDirect k hsound m
    exact ⟨hroot.nonneg, hroot.lt⟩
  | current =>
    obtain ⟨hroot, -⟩ := isRoot_applySplit_of_current hsound hversion m
    exact ⟨hroot.nonneg, hroot.lt⟩

/-- A key that the check of its parts lets through. -/
def Key.Accepted : Key → Prop
  | .pub k => PublicKey.ofParts k.header k.n = .ok k
  | .priv k => PrivateKey.ofParts k.header k.n k.d k.p k.q k.dp k.dq k.qInv = .ok k

/-- The operation of a checked key gives numbers of no more binary digits than the key states. -/
theorem Key.Accepted.apply_lt {key : Key} (haccepted : key.Accepted) {m c : Integer}
    (h : key.apply m = .ok c) : 0 ≤ c.toInt ∧ c.toInt < 2 ^ key.header.bits.toNat := by
  have hmodulus (n : Integer) (bits : ℕ) (hbits : n.bits ≤ bits) (hlt : c.toInt < n.toInt) :
      c.toInt < 2 ^ bits := by
    have hn := (Integer.bits_le_iff n bits).mp hbits
    calc c.toInt < n.toInt := hlt
      _ ≤ n.toInt.natAbs := Int.le_natAbs
      _ ≤ 2 ^ bits := by exact_mod_cast hn.le
  cases key with
  | pub k =>
    obtain ⟨-, -, -, hbits⟩ :=
      (PrivateKey.allowsModulus_iff _ _).mp (PublicKey.ofParts_eq_ok haccepted)
    obtain ⟨hnonneg, hlt⟩ := PublicKey.apply_bounds h
    exact ⟨hnonneg, hmodulus _ _ hbits hlt⟩
  | priv k =>
    have hsound := PrivateKey.ofParts_eq_ok haccepted
    obtain ⟨hnonneg, hlt⟩ := PrivateKey.apply_bounds hsound h
    exact ⟨hnonneg, hmodulus _ _ hsound.n_bits_le hlt⟩

end Signet
