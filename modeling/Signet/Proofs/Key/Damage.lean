import Mathlib
import Signet.Proofs.Checksum.Burst
import Signet.Proofs.Key.PrivateFormat

/-! Damage to the secrets of a stored private key. A short burst leaves the secrets as many as they
were, so that they are deciphered and taken for secrets like others; their checksum is then another
one than the one that is stored. Main statements: `decode_packet_of_burst` and `bursts_detected`. -/
namespace Signet.PrivateKey

/-- No key is read where the checksum fails, and where one is held the passphrase is blamed. -/
theorem decode_of_not_checksumHolds {bytes : Bytes} {pass : Digest}
    (hfails : ¬ ChecksumHolds bytes pass) :
    (∀ k used, decode bytes pass ≠ .ok (k, used)) ∧
      (Packed bytes → decode bytes pass = .error .wrongPassphrase) := by
  constructor
  · intro k used hread
    exact hfails (packed_of_decode hread).2
  · intro hpacked
    rcases hpacked.decode_eq pass with ⟨hholds, -⟩ | ⟨-, hread⟩
    · exact absurd hholds hfails
    · exact hread

/-- The checksum of some secrets does not hold for others that a burst made of them. -/
theorem not_checksumHolds_of_burst {a b : Bytes} (h : Burst a b) {bytes : Bytes} {pass : Digest}
    (hplain : decrypt pass (secretBlock bytes) = .ok b)
    (hsum : storedChecksum bytes = (Crc32.ofBytes a).toNat) : ¬ ChecksumHolds bytes pass := by
  rintro ⟨plain, hread, hholds⟩
  obtain rfl : plain = b := Except.ok.inj (hread.symm.trans hplain)
  have hequal : (Crc32.ofBytes a).toNat = (Crc32.ofBytes plain).toNat := hsum.symm.trans hholds
  exact h.ofBytes_ne (UInt32.toNat_inj.mp hequal)

section Written

variable {k : PrivateKey} {pass : Digest} {b damaged : Bytes}

/-- As many bytes as a key has secrets are enciphered when the secrets are. -/
theorem exists_encrypt_of_length (hencode : ∃ intact, encrypt pass k.plainSecrets = .ok intact)
    (hlength : k.plainSecrets.length = b.length) : ∃ damaged, encrypt pass b = .ok damaged := by
  rw [encrypt, Blockwise.exists_apply_iff] at hencode ⊢
  rwa [← hlength]

/-- What a key is stored around is found as its secrets, with the checksum of its own. -/
theorem places_packet (hlength : k.plainSecrets.length = b.length)
    (hdamaged : encrypt pass b = .ok damaged) (hmin : minKeyBits ≤ k.header.bits.toNat)
    (hmod : k.header.bits.toNat % 16 = 0) (iv : Block) (rest : Bytes) :
    Stores (k.packet damaged iv ++ rest) k damaged ∧
      decrypt pass (secretBlock (k.packet damaged iv ++ rest)) = .ok b ∧
      storedChecksum (k.packet damaged iv ++ rest) = (Crc32.ofBytes k.plainSecrets).toNat := by
  have hunits : damaged.length = secretUnits * k.header.unit := by
    rw [Blockwise.length_eq_of_apply hdamaged, ← hlength, length_plainSecrets]
  have hstores := k.stores_packet_append hunits hmin hmod iv rest
  obtain ⟨hsecrets, hchecksum⟩ := places_of_decode hstores.header_eq
  rw [hsecrets, hchecksum, hstores.secrets_at]
  exact ⟨hstores, decrypt_encrypt hdamaged,
    (Bytes.slice_eq_bigEndian_iff hstores.length_le (UInt32.toNat_lt _)).mp hstores.checksum_at⟩

/-- A key that was stored around damaged secrets is found to be one, of a wrong passphrase. -/
theorem decode_packet_of_burst (h : Burst k.plainSecrets b)
    (hdamaged : encrypt pass b = .ok damaged) (hmin : minKeyBits ≤ k.header.bits.toNat)
    (hsize : k.header.ReadableSize) (iv : Block) (rest : Bytes) :
    decode (k.packet damaged iv ++ rest) pass = .error .wrongPassphrase := by
  obtain ⟨hstores, hplain, hsum⟩ := places_packet h.length_eq hdamaged hmin hsize.bits_mod iv rest
  -- the damaged secrets are as many as the key has, and they were enciphered
  have hblocks : k.header.unit % 16 = 0 := by
    have hwhole := (Blockwise.exists_apply_iff _ _).mp ⟨damaged, hdamaged⟩
    rw [← h.length_eq, length_plainSecrets, secretUnits] at hwhole
    omega
  have hpacked : Packed (k.packet damaged iv ++ rest) :=
    packed_of_header hstores.header_eq hsize hblocks hstores.length_le
  exact (decode_of_not_checksumHolds (not_checksumHolds_of_burst h hplain hsum)).2 hpacked

end Written

/-- Two byte strings of one length that differ only inside a window of four bytes have different
checksums. So no private key is read where the secrets are deciphered to the one and the checksum of
the other is stored; in particular not where a key was written that is read again, and its secrets
were damaged. -/
theorem bursts_detected {a b : Bytes} (h : Burst a b) :
    Crc32.ofBytes a ≠ Crc32.ofBytes b ∧
    (∀ bytes pass, decrypt pass (secretBlock bytes) = .ok b →
      storedChecksum bytes = (Crc32.ofBytes a).toNat →
        (∀ k used, decode bytes pass ≠ .ok (k, used)) ∧
        (Packed bytes → decode bytes pass = .error .wrongPassphrase)) ∧
    ∀ (k : PrivateKey) pass iv stored, k.encode pass iv = .ok stored → k.secrets = .ok a →
      ∃ intact damaged, encrypt pass a = .ok intact ∧ stored = k.packet intact iv ∧
        encrypt pass b = .ok damaged ∧ ∀ rest,
          (∀ k' used, decode (k.packet damaged iv ++ rest) pass ≠ .ok (k', used)) ∧
          (minKeyBits ≤ k.header.bits.toNat → k.header.ReadableSize →
            decode (stored ++ rest) pass = .ok (k.unsigned, stored.length) ∧
              decode (k.packet damaged iv ++ rest) pass = .error .wrongPassphrase) := by
  refine ⟨h.ofBytes_ne, ?_, ?_⟩
  · intro bytes pass hplain hsum
    exact decode_of_not_checksumHolds (not_checksumHolds_of_burst h hplain hsum)
  · intro k pass iv stored hencode hsecrets
    obtain ⟨-, rfl⟩ := k.secrets_eq_ok_iff.mp hsecrets
    obtain ⟨-, -, intact, hintact, rfl⟩ := k.encode_eq_ok_iff.mp hencode
    obtain ⟨damaged, hdamaged⟩ := exists_encrypt_of_length ⟨intact, hintact⟩ h.length_eq
    refine ⟨intact, damaged, hintact, rfl, hdamaged, fun rest => ?_⟩
    have hrefused := decode_packet_of_burst h hdamaged
    refine ⟨?_, fun hmin hsize =>
      ⟨decode_encode_append hencode hmin hsize rest, hrefused hmin hsize iv rest⟩⟩
    -- a key that came back would have been of a size that is read, and so refused
    intro k' used hread
    obtain ⟨hmin, hsize⟩ := readableSize_of_decode_packet hread
    rw [hrefused hmin hsize iv rest] at hread
    cases hread

/-- The textbook key with another first byte of its private exponent. -/
theorem bursts_detected_sample : ∃ intact damaged : Bytes,
    (Burst (textbook .current 2753).plainSecrets ((textbook .current 2753).plainSecrets.set 0 1) ∧
      (textbook .current 2753).encode .zero (.replicate 16 0) = .ok intact) ∧
    (decrypt .zero (secretBlock damaged) = .ok ((textbook .current 2753).plainSecrets.set 0 1) ∧
      storedChecksum damaged = (Crc32.ofBytes (textbook .current 2753).plainSecrets).toNat) ∧
    (∀ k used, decode damaged .zero ≠ .ok (k, used)) ∧
      ∀ rest, decode (intact ++ rest) .zero =
          .ok ((textbook .current 2753).unsigned, intact.length) ∧
        decode (damaged ++ rest) .zero = .error .wrongPassphrase := by
  have hburst : Burst (textbook .current 2753).plainSecrets
      ((textbook .current 2753).plainSecrets.set 0 1) :=
    Burst.set (by decide +kernel) (by decide +kernel)
  have hfit : (textbook .current 2753).SecretsFit := by decide +kernel
  have hmin : minKeyBits ≤ (textbook .current 2753).header.bits.toNat := by decide +kernel
  have hsize : (textbook .current 2753).header.ReadableSize := ⟨by decide +kernel, by decide +kernel⟩
  obtain ⟨intact, hencode⟩ := exists_encode_zero (textbook .current 2753) (by decide +kernel)
  obtain ⟨-, hany, hwritten⟩ := bursts_detected hburst
  obtain ⟨-, damaged, -, -, hdamaged, hrefused⟩ := hwritten (textbook .current 2753) .zero
    (.replicate 16 0) intact hencode ((secrets_eq_ok_iff _).mpr ⟨hfit, rfl⟩)
  obtain ⟨-, hplain, hsum⟩ := places_packet hburst.length_eq hdamaged hmin hsize.bits_mod
    (.replicate 16 0) []
  exact ⟨intact, _, ⟨hburst, hencode⟩, ⟨hplain, hsum⟩, (hany _ _ hplain hsum).1,
    fun rest => by rw [List.append_nil]; exact (hrefused rest).2 hmin hsize⟩

end Signet.PrivateKey
