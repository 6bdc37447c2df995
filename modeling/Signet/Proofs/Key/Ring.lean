import Mathlib
import Signet.Key.Ring
import Signet.Proofs.Key.Generation
import Signet.Proofs.Key.Storage

/-! Generated keys in storage. The numbers of a generated key fit the widths that they are stored
in, none of them is negative, and the size of the modulus is a readable one, so that a key comes
back as it was, and a ring of such keys does so key by key. Main statement: `ring_round_trip`. -/
namespace Signet

namespace KeyRequest

theorem blocks (r : KeyRequest) : r.bits % 256 = 0 := by
  obtain ⟨k, hk, -⟩ := r.exists_bits_eq
  rw [hk, show k + 9 = (k + 1) + 8 by ring, pow_add]
  simp

namespace Meets

variable {r : KeyRequest} {pub : PublicKey} {priv : PrivateKey} (h : r.Meets pub priv)
include h

theorem bits_eq_unit : r.bits = 16 * priv.header.unit := by
  have hblocks := r.blocks
  rw [KeyHeader.unit, h.header_eq]
  change r.bits = 16 * (r.bits / 16)
  omega

/-- A number below the larger prime fits half of the width of the modulus. -/
theorem natAbs_lt_of_lt_p {x : Integer} (hx : 0 ≤ x.toInt) (hlt : x.toInt ≤ priv.p.toInt) :
    x.toInt.natAbs < 256 ^ priv.header.unit := by
  have hhalf : r.bits / 2 = 8 * priv.header.unit := by
    rw [h.bits_eq_unit]
    omega
  have hp := (Integer.bits_le_iff _ _).mp h.p_bits.le
  rw [hhalf, pow_mul] at hp
  exact lt_of_le_of_lt (by omega) hp

theorem natAbs_lt_of_lt_n {x : Integer} (hx : 0 ≤ x.toInt) (hlt : x.toInt ≤ priv.n.toInt) :
    x.toInt.natAbs < 256 ^ (2 * priv.header.unit) := by
  have hwidth : priv.header.bits.toNat = 8 * (2 * priv.header.unit) := by
    have hbits := h.bits_eq_unit
    rw [h.header_eq] at hbits ⊢
    change r.bits = _
    omega
  have hn := (Integer.bits_le_iff _ _).mp h.sound.n_bits_le
  rw [hwidth, pow_mul] at hn
  exact lt_of_le_of_lt (by omega) hn

/-- The remainders and the inverse are not negative, and not above the larger prime. -/
theorem reduced_bounds :
    (0 ≤ priv.dp.toInt ∧ priv.dp.toInt ≤ priv.p.toInt) ∧
      (0 ≤ priv.dq.toInt ∧ priv.dq.toInt ≤ priv.p.toInt) := by
  obtain ⟨⟨hdp, hdp_lt⟩, hdq, hdq_lt⟩ := h.sound.reduced_range h.current
  have hlt := h.q_lt_p
  exact ⟨⟨hdp, by omega⟩, hdq, by omega⟩

theorem d_le_n : priv.d.toInt ≤ priv.n.toInt := by
  have hp := h.sound.two_lt_p
  have hq := h.sound.two_lt_q
  have hlt := h.d_lt
  rw [h.sound.n_eq]
  nlinarith

theorem secretsFit : priv.SecretsFit := by
  obtain ⟨⟨hdp, hdp_le⟩, hdq, hdq_le⟩ := h.reduced_bounds
  have hp := h.sound.two_lt_p
  have hq := h.sound.two_lt_q
  constructor
  case d_lt => exact h.natAbs_lt_of_lt_n h.d_pos.le h.d_le_n
  case p_lt => exact h.natAbs_lt_of_lt_p (by omega) le_rfl
  case q_lt => exact h.natAbs_lt_of_lt_p (by omega) h.q_lt_p.le
  case dp_lt => exact h.natAbs_lt_of_lt_p hdp hdp_le
  case dq_lt => exact h.natAbs_lt_of_lt_p hdq hdq_le
  case qInv_lt => exact h.natAbs_lt_of_lt_p h.qInv_pos.le h.qInv_lt.le

theorem natAbs_n_lt : priv.n.toInt.natAbs < 256 ^ (2 * priv.header.unit) := by
  have hn := h.sound.one_lt_n
  exact h.natAbs_lt_of_lt_n (by omega) le_rfl

theorem unsigned_eq : priv.unsigned = priv := by
  obtain ⟨⟨hdp, -⟩, hdq, -⟩ := h.reduced_bounds
  have hn := h.sound.one_lt_n
  have hp := h.sound.two_lt_p
  have hq := h.sound.two_lt_q
  rw [PrivateKey.unsigned_eq_self_iff]
  exact ⟨by omega, h.d_pos.le, by omega, by omega, hdp, hdq, h.qInv_pos.le⟩

theorem readableSize (hmax : r.bits ≤ Integer.maxBits) : priv.header.ReadableSize := by
  have hblocks := r.blocks
  rw [h.header_eq]
  constructor
  case bits_mod =>
    change r.bits % 16 = 0
    omega
  case bits_le => exact hmax

theorem unit_blocks : priv.header.unit % 16 = 0 := by
  have hblocks := r.blocks
  have hbits := h.bits_eq_unit
  omega

end Meets
end KeyRequest

namespace Key

/-- The stored form of a key has the length that was foretold, and the same key is read from it,
whatever stands behind it. -/
structure StoredAs (key : Key) (pass : Digest) (iv : Block) (bytes : Bytes) : Prop where
  encode_eq : key.encode pass iv = .ok bytes
  length_eq : bytes.length = key.encodedLength
  decode_eq : ∀ rest, decode (bytes ++ rest) (some pass) = .ok (key, bytes.length)

/-- One half of a pair that some request led to, under whichever seed and observer. -/
def Generated (key : Key) : Prop :=
  ∃ (r : KeyRequest) (seed : Bytes) (σ : Type) (observer : Observer σ) (s t : σ)
    (pub : PublicKey) (priv : PrivateKey),
    r.bits ≤ Integer.maxBits ∧ (r.generate seed).run observer s = (.ok (pub, priv), t) ∧
      (key = .pub pub ∨ key = .priv priv)

section Meets

variable {r : KeyRequest} {pub : PublicKey} {priv : PrivateKey} (h : r.Meets pub priv)
  (hmax : r.bits ≤ Integer.maxBits) (pass : Digest) (iv : Block)
include h hmax

theorem exists_storedAs_public : ∃ bytes, (Key.pub pub).StoredAs pass iv bytes := by
  obtain rfl := h.public_eq
  have hn := h.sound.one_lt_n
  have hself : priv.toPublic.unsigned = priv.toPublic :=
    priv.toPublic.unsigned_eq_self_iff.mpr (show 0 ≤ priv.n.toInt by omega)
  have hencode := priv.toPublic.encode_eq_ok_iff.mpr ⟨h.natAbs_n_lt, rfl⟩
  refine ⟨_, hencode, PublicKey.length_of_encode hencode, ?_⟩
  intro rest
  have hread := PublicKey.decode_encode_append hencode h.sound.minKeyBits_le
    (h.readableSize hmax) rest
  rw [hself] at hread
  exact decode_of_public hread

theorem exists_storedAs_private : ∃ bytes, (Key.priv priv).StoredAs pass iv bytes := by
  obtain ⟨bytes, hencode⟩ :=
    (priv.exists_encode_iff pass iv).mpr ⟨h.natAbs_n_lt, h.secretsFit, h.unit_blocks⟩
  refine ⟨bytes, hencode, PrivateKey.length_of_encode hencode, ?_⟩
  intro rest
  have hread := PrivateKey.decode_encode_append hencode h.sound.minKeyBits_le
    (h.readableSize hmax) rest
  rw [h.unsigned_eq] at hread
  exact decode_of_private hread

end Meets

theorem Generated.exists_storedAs {key : Key} (h : key.Generated) (pass : Digest) (iv : Block) :
    ∃ bytes, key.StoredAs pass iv bytes := by
  obtain ⟨r, seed, σ, observer, s, t, pub, priv, hmax, hrun, hhalf⟩ := h
  have hmeets := KeyRequest.meets_of_value (Monitored.value_of_run_eq_ok hrun)
  rcases hhalf with rfl | rfl
  · exact exists_storedAs_public hmeets hmax pass iv
  · exact exists_storedAs_private hmeets hmax pass iv

/-- Generated keys that are stored back to back are read back in their order, to the last byte. -/
theorem ring_round_trip (pass : Digest) (entries : List (Key × Block))
    (h : ∀ e ∈ entries, e.1.Generated) :
    ∃ parts : List Bytes,
      List.Forall₂ (fun e part => e.1.StoredAs pass e.2 part) entries parts ∧
        decodeAll (some pass) parts.flatten = .ok (entries.map Prod.fst) := by
  -- on the keys that are still to be written, with the stored forms of those behind them at hand
  induction entries with
  | nil => exact ⟨[], .nil, decodeAll_nil _⟩
  | cons e entries ih =>
    obtain ⟨part, hpart⟩ := (h e List.mem_cons_self).exists_storedAs pass e.2
    obtain ⟨parts, hparts, hring⟩ := ih fun e' he' => h e' (List.mem_cons_of_mem _ he')
    refine ⟨part :: parts, .cons hpart hparts, ?_⟩
    -- the key is read from the front of the ring, and the rest of the ring is what is left
    have hrest : (part ++ parts.flatten).drop part.length = parts.flatten := List.drop_left
    rw [List.flatten_cons, List.map_cons]
    exact decodeAll_of_decode (hpart.decode_eq parts.flatten) (hrest.symm ▸ hring)

/-- A ring with both halves of one pair. -/
theorem ring_round_trip_sample : ∃ priv : PrivateKey,
    (Key.pub priv.toPublic).Generated ∧ (Key.priv priv).Generated ∧
    ∃ parts : List Bytes,
      List.Forall₂ (fun (e : Key × Block) part => e.1.StoredAs .zero e.2 part)
        [(.pub priv.toPublic, .replicate 16 0), (.priv priv, .replicate 16 1)] parts ∧
      decodeAll (some .zero) parts.flatten = .ok [.pub priv.toPublic, .priv priv] := by
  obtain ⟨priv, hrun, -, -⟩ := KeyRequest.exists_sample_pair
  have hgenerated (key : Key) (hhalf : key = .pub priv.toPublic ∨ key = .priv priv) :
      key.Generated :=
    ⟨_, _, _, _, _, _, _, _, by decide +kernel, hrun, hhalf⟩
  have hpublic := hgenerated _ (Or.inl rfl)
  have hprivate := hgenerated _ (Or.inr rfl)
  refine ⟨priv, hpublic, hprivate, ring_round_trip .zero
    [(.pub priv.toPublic, .replicate 16 0), (.priv priv, .replicate 16 1)] ?_⟩
  intro e he
  rcases List.mem_pair.mp he with rfl | rfl
  · exact hpublic
  · exact hprivate

end Key
end Signet
