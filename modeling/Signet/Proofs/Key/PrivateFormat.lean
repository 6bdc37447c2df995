import Mathlib
import Signet.Proofs.Key.Lossless

/-! The bytes that private keys are read from under a passphrase. What is enciphered is deciphered
to one row of secrets and back again, so that a key is read exactly from the bytes that it is
written as, with the sixteen bytes of its owner as they were found. Main statements:
`readsExactly`, `Reads.encode_eq`, `Packed.decode_eq` and `private_reader_exact`. -/
namespace Signet.PrivateKey

/-- A secret that was read is written as it stood among the deciphered bytes. -/
theorem bigEndian_of_secretAt {plain : Bytes} {start width : ℕ} {x : Integer}
    (h : secretAt plain start width = .ok x) (hlength : start + width ≤ plain.length) :
    0 ≤ x.toInt ∧ x.toInt.natAbs < 256 ^ width ∧
      Bytes.bigEndian width x.toInt.natAbs = plain.slice start width := by
  have hfield := Bytes.length_slice hlength
  have hload := Integer.bigEndian_of_load h (by rw [hfield]; omega)
  rwa [hfield] at hload

/-- The secrets fill the deciphered bytes, and none of them has a sign. -/
theorem HasSecrets.plainSecrets_eq {k : PrivateKey} {plain : Bytes} (h : k.HasSecrets plain)
    (hlength : plain.length = secretUnits * k.header.unit) :
    k.plainSecrets = plain ∧ k.SecretsFit ∧
      (0 ≤ k.d.toInt ∧ 0 ≤ k.p.toInt ∧ 0 ≤ k.q.toInt ∧ 0 ≤ k.dp.toInt ∧ 0 ≤ k.dq.toInt ∧
        0 ≤ k.qInv.toInt) := by
  rw [secretUnits] at hlength
  obtain ⟨hd, hd_lt, hd_at⟩ := bigEndian_of_secretAt h.d_eq (by omega)
  obtain ⟨hp, hp_lt, hp_at⟩ := bigEndian_of_secretAt h.p_eq (by omega)
  obtain ⟨hq, hq_lt, hq_at⟩ := bigEndian_of_secretAt h.q_eq (by omega)
  obtain ⟨hdp, hdp_lt, hdp_at⟩ := bigEndian_of_secretAt h.dp_eq (by omega)
  obtain ⟨hdq, hdq_lt, hdq_at⟩ := bigEndian_of_secretAt h.dq_eq (by omega)
  obtain ⟨hqInv, hqInv_lt, hqInv_at⟩ := bigEndian_of_secretAt h.qInv_eq (by omega)
  refine ⟨?_, ⟨hd_lt, hp_lt, hq_lt, hdp_lt, hdq_lt, hqInv_lt⟩, hd, hp, hq, hdp, hdq, hqInv⟩
  have hnext (slot : ℕ) : slot * k.header.unit + k.header.unit = (slot + 1) * k.header.unit :=
    (Nat.succ_mul _ _).symm
  -- the slots lie end to end, and nothing is left behind the last one
  have hrow : plain.drop 0 = k.plainSecrets ++ plain.drop (7 * k.header.unit) := by
    rw [plainSecrets, hd_at, hp_at, hq_at, hdp_at, hdq_at, hqInv_at,
      plain.drop_eq_slice_append 0 (2 * k.header.unit) (Nat.zero_add _),
      plain.drop_eq_slice_append (2 * k.header.unit) k.header.unit (hnext 2),
      plain.drop_eq_slice_append (3 * k.header.unit) k.header.unit (hnext 3),
      plain.drop_eq_slice_append (4 * k.header.unit) k.header.unit (hnext 4),
      plain.drop_eq_slice_append (5 * k.header.unit) k.header.unit (hnext 5),
      plain.drop_eq_slice_append (6 * k.header.unit) k.header.unit (hnext 6)]
    simp only [List.append_assoc]
  rw [List.drop_zero, List.drop_eq_nil_of_le hlength.le, List.append_nil] at hrow
  exact hrow.symm

namespace Reads

variable {bytes : Bytes} {pass : Digest} {k : PrivateKey} {plain : Bytes}
  (h : Reads bytes pass k plain)
include h

theorem bits_mod : minKeyBits ≤ k.header.bits.toNat ∧ k.header.bits.toNat % 16 = 0 :=
  (KeyHeader.decode_eq_ok h.header_eq).2.1

theorem readableSize : k.header.ReadableSize :=
  ⟨h.bits_mod.2, Integer.width_le_of_load h.modulus_eq⟩

theorem length_plain : plain.length = secretUnits * k.header.unit := by
  have hlength := h.length_le
  rw [checksumStart] at hlength
  rw [Blockwise.length_eq_of_apply h.plain_eq, Bytes.length_slice (by omega)]

theorem modulus : 0 ≤ k.n.toInt ∧ k.n.toInt.natAbs < 256 ^ (2 * k.header.unit) ∧
    Bytes.bigEndian (2 * k.header.unit) k.n.toInt.natAbs =
      bytes.slice k.header.encodedLength (2 * k.header.unit) := by
  have hlength := h.length_le
  rw [checksumStart] at hlength
  have hfield : (bytes.slice k.header.encodedLength (2 * k.header.unit)).length =
      2 * k.header.unit := Bytes.length_slice (by omega)
  have hload := Integer.bigEndian_of_load h.modulus_eq (by rw [hfield, h.readableSize.bits_div])
  rwa [hfield] at hload

/-- Nothing that was read has a sign to lose. -/
theorem unsigned_eq : k.unsigned = k := by
  obtain ⟨-, -, hnonneg⟩ := h.secrets.plainSecrets_eq h.length_plain
  exact k.unsigned_eq_self_iff.mpr ⟨h.modulus.1, hnonneg⟩

/-- Written anew, with the sixteen bytes found behind its secrets, a key gives the bytes where it
was found. -/
theorem encode_eq (hsum : bytes.slice (checksumStart k.header) checksumSize =
      Bytes.bigEndian checksumSize (Crc32.ofBytes plain).toNat) :
    ∃ iv : Block, iv.toList = bytes.slice (k.encodedLength - 20) 16 ∧
      k.encode pass iv = .ok (bytes.take k.encodedLength) := by
  obtain ⟨-, -, hheader⟩ := KeyHeader.decode_eq_ok_iff.mp h.header_eq
  obtain ⟨-, hn, hmodulus⟩ := h.modulus
  obtain ⟨hrow, hfit, -⟩ := h.secrets.plainSecrets_eq h.length_plain
  have hlength := h.length_le
  rw [checksumStart] at hlength
  have hiv : (bytes.slice (k.header.encodedLength + 2 * k.header.unit +
      secretUnits * k.header.unit) ivSize).length = ivSize := Bytes.length_slice (by omega)
  -- enciphered anew, the secrets give the bytes that they were deciphered from
  have hencrypt := encrypt_decrypt h.plain_eq
  rw [← hrow] at hsum hencrypt
  rw [encodedLength_eq]
  refine ⟨⟨(bytes.slice _ ivSize).toArray, hiv⟩, ?_,
    k.encode_eq_ok_iff.mpr ⟨hn, hfit, _, hencrypt, ?_⟩⟩
  · have hstart : k.header.encodedLength + 2 * k.header.unit + secretUnits * k.header.unit =
        k.header.encodedLength + 2 * k.header.unit + secretUnits * k.header.unit + ivSize +
          checksumSize - 20 := by
      rw [ivSize, checksumSize]
      omega
    rw [← hstart]
    rfl
  · rw [packet, hmodulus, ← hsum, checksumStart, List.prefix_iff_eq_take.mp hheader,
      KeyHeader.length_encode, bytes.take_add, bytes.take_add, bytes.take_add, bytes.take_add]
    simp only [List.append_assoc]
    rfl

end Reads

/-- What a key without signs, of a size that is read back, is written as under a passphrase. -/
def WrittenAs (pass : Digest) (k : PrivateKey) (out : Bytes) : Prop :=
  (minKeyBits ≤ k.header.bits.toNat ∧ k.header.ReadableSize ∧ k.unsigned = k) ∧
    ∃ iv, k.encode pass iv = .ok out

/-- A private key is read under a passphrase from the bytes that it is written as under it, and
from no others. -/
theorem readsExactly (pass : Digest) : ReadsExactly (decode · pass) (WrittenAs pass) := by
  intro bytes k used
  constructor
  · intro hread
    obtain ⟨rfl, plain, h, hsum⟩ := decode_eq_ok_iff_reads.mp hread
    obtain ⟨iv, -, hencode⟩ := h.encode_eq hsum
    exact ⟨_, ⟨⟨h.bits_mod.1, h.readableSize, h.unsigned_eq⟩, iv, hencode⟩, List.take_prefix _ _,
      (length_of_encode hencode).symm⟩
  · rintro ⟨out, ⟨⟨hmin, hsize, hself⟩, iv, hencode⟩, ⟨rest, rfl⟩, rfl⟩
    dsimp only
    rw [decode_encode_append hencode hmin hsize rest, hself]

/-- The bytes that hold a private key, under whatever passphrase: a header of its kind with a size
in units of 256 binary digits, a modulus of that size, secrets of seven sixteenths of a byte for
each of its digits, and twenty bytes more. -/
@[mk_iff]
structure Packed (bytes : Bytes) : Prop where
  states : Packet.States bytes 0x000A 256
  length_le : KeyHeader.statedSize bytes + 9 * bytes.numberAt 4 4 / 16 + 20 ≤ bytes.length

instance (bytes : Bytes) : Decidable (Packed bytes) := decidable_of_iff' _ (packed_iff bytes)

/-- The enciphered secrets, where the header states that they are. -/
def secretBlock (bytes : Bytes) : Bytes :=
  bytes.slice (KeyHeader.statedSize bytes + bytes.numberAt 4 4 / 8) (7 * bytes.numberAt 4 4 / 16)

def storedChecksum (bytes : Bytes) : ℕ :=
  bytes.numberAt (KeyHeader.statedSize bytes + 9 * bytes.numberAt 4 4 / 16 + 16) 4

/-- The secrets, deciphered under a passphrase, have the checksum that is stored behind them. -/
def ChecksumHolds (bytes : Bytes) (pass : Digest) : Prop :=
  ∃ plain,
    decrypt pass (bytes.slice (KeyHeader.statedSize bytes + bytes.numberAt 4 4 / 8)
      (7 * bytes.numberAt 4 4 / 16)) = .ok plain ∧
    bytes.numberAt (KeyHeader.statedSize bytes + 9 * bytes.numberAt 4 4 / 16 + 16) 4 =
      (Crc32.ofBytes plain).toNat

/-- The places of the secrets and of their checksum, in the units of a header. -/
theorem places_of_decode {bytes : Bytes} {header : KeyHeader}
    (hheader : KeyHeader.decode bytes = .ok (.privateKey, header)) :
    secretBlock bytes = bytes.slice (header.encodedLength + 2 * header.unit)
        (secretUnits * header.unit) ∧
      storedChecksum bytes = bytes.numberAt (checksumStart header) checksumSize := by
  have hdigits := KeyHeader.numberAt_of_decode hheader
  have hmodulus : bytes.numberAt 4 4 / 8 = 2 * header.unit := by omega
  have hsecrets : 7 * bytes.numberAt 4 4 / 16 = secretUnits * header.unit := by
    rw [secretUnits]
    omega
  have hstart : header.encodedLength + 9 * bytes.numberAt 4 4 / 16 + 16 =
      checksumStart header := by
    rw [checksumStart, secretUnits, ivSize]
    omega
  rw [secretBlock, storedChecksum, KeyHeader.statedSize_of_decode hheader, hstart, hmodulus,
    hsecrets, checksumSize]
  exact ⟨rfl, rfl⟩

theorem checksumHolds_iff {bytes : Bytes} {pass : Digest} {header : KeyHeader}
    (hheader : KeyHeader.decode bytes = .ok (.privateKey, header)) :
    ChecksumHolds bytes pass ↔ ∃ plain,
      decrypt pass (bytes.slice (header.encodedLength + 2 * header.unit)
        (secretUnits * header.unit)) = .ok plain ∧
      bytes.numberAt (checksumStart header) checksumSize = (Crc32.ofBytes plain).toNat := by
  obtain ⟨hsecrets, hchecksum⟩ := places_of_decode hheader
  rw [← hsecrets, ← hchecksum]
  rfl

/-- A header of a private key, with a size that numbers may have and that fills whole blocks, and
enough bytes behind it. -/
theorem packed_of_header {bytes : Bytes} {header : KeyHeader}
    (hheader : KeyHeader.decode bytes = .ok (.privateKey, header)) (hsize : header.ReadableSize)
    (hblocks : header.unit % 16 = 0)
    (hlength : checksumStart header + checksumSize ≤ bytes.length) : Packed bytes := by
  have hdigits := KeyHeader.numberAt_of_decode hheader
  have hstates := KeyHeader.states_of_decode hheader hsize.bits_le
  rw [checksumStart, secretUnits, ivSize, checksumSize] at hlength
  refine ⟨⟨hstates.code_eq, hstates.version_le, hstates.le_bits, hstates.bits_le, by omega⟩, ?_⟩
  rw [KeyHeader.statedSize_of_decode hheader, hdigits]
  omega

theorem packed_of_decode {bytes : Bytes} {pass : Digest} {k : PrivateKey} {used : ℕ}
    (hread : decode bytes pass = .ok (k, used)) : Packed bytes ∧ ChecksumHolds bytes pass := by
  obtain ⟨-, plain, h, hsum⟩ := decode_eq_ok_iff_reads.mp hread
  have hblocks := (Blockwise.exists_apply_iff _ _).mp ⟨_, encrypt_decrypt h.plain_eq⟩
  rw [h.length_plain, secretUnits] at hblocks
  rw [Bytes.slice_eq_bigEndian_iff h.length_le (UInt32.toNat_lt _)] at hsum
  exact ⟨packed_of_header h.header_eq h.readableSize (by omega) h.length_le,
    (checksumHolds_iff h.header_eq).mpr ⟨plain, h.plain_eq, hsum⟩⟩

theorem exists_secretAt {plain : Bytes} {start width : ℕ} (hlength : start + width ≤ plain.length)
    (hmax : 8 * width ≤ Integer.maxBits) : ∃ x, secretAt plain start width = .ok x := by
  refine ⟨_, Integer.load_eq_ok (Nat.mul_mod_right 8 width) hmax ?_⟩
  rw [Bytes.length_slice hlength]
  omega

/-- Any deciphered bytes in the right number are taken for secrets. -/
theorem exists_hasSecrets {header : KeyHeader} (hsize : header.ReadableSize) (n : Integer)
    {plain : Bytes} (hlength : plain.length = secretUnits * header.unit) :
    ∃ k : PrivateKey, k.header = header ∧ k.n = n ∧ k.HasSecrets plain := by
  have hmax := hsize.bits_le
  rw [secretUnits] at hlength
  have hunit : 16 * header.unit ≤ Integer.maxBits := by
    rw [KeyHeader.unit]
    omega
  obtain ⟨d, hd⟩ := exists_secretAt (show 0 + 2 * header.unit ≤ plain.length by omega) (by omega)
  have hnext (slot : ℕ) (hslot : slot < 7) :
      ∃ x, secretAt plain (slot * header.unit) header.unit = .ok x := by
    refine exists_secretAt ?_ (by omega)
    rw [hlength, ← Nat.succ_mul]
    exact Nat.mul_le_mul_right _ hslot
  obtain ⟨p, hp⟩ := hnext 2 (by decide)
  obtain ⟨q, hq⟩ := hnext 3 (by decide)
  obtain ⟨dp, hdp⟩ := hnext 4 (by decide)
  obtain ⟨dq, hdq⟩ := hnext 5 (by decide)
  obtain ⟨qInv, hqInv⟩ := hnext 6 (by decide)
  exact ⟨{ header, n, d, p, q, dp, dq, qInv }, rfl, rfl, hd, hp, hq, hdp, hdq, hqInv⟩

/-- Where the bytes hold a private key, there is something to be read under every passphrase. -/
theorem Packed.exists_reads {bytes : Bytes} (h : Packed bytes) (pass : Digest) :
    ∃ k plain, Reads bytes pass k plain := by
  have hmod := h.states.bits_mod
  have hlength := h.length_le
  obtain ⟨header, hheader, hsize⟩ := KeyHeader.exists_decode_of_states
    (show PacketKind.privateKey ≠ .signature by decide) h.states (by decide) (by omega)
  have hdigits := KeyHeader.numberAt_of_decode hheader
  rw [KeyHeader.statedSize_of_decode hheader] at hlength
  have htotal : checksumStart header + checksumSize ≤ bytes.length := by
    rw [checksumStart, secretUnits, ivSize, checksumSize]
    omega
  have hbody := htotal
  rw [checksumStart] at hbody
  obtain ⟨n, hload⟩ := hsize.exists_load
    (Bytes.length_slice (show header.encodedLength + 2 * header.unit ≤ bytes.length by omega))
  have hsecrets := Bytes.length_slice (show header.encodedLength + 2 * header.unit +
    secretUnits * header.unit ≤ bytes.length by omega)
  obtain ⟨plain, hplain⟩ : ∃ plain, decrypt pass (bytes.slice (header.encodedLength +
      2 * header.unit) (secretUnits * header.unit)) = .ok plain := by
    rw [decrypt, Blockwise.exists_apply_iff, hsecrets, secretUnits]
    omega
  obtain ⟨k, rfl, rfl, hk⟩ := exists_hasSecrets hsize n
    ((Blockwise.length_eq_of_apply hplain).trans hsecrets)
  exact ⟨k, plain, hheader, htotal, hload, hplain, hk⟩

/-- The checksum alone decides whether it is read. -/
theorem Packed.decode_eq {bytes : Bytes} (h : Packed bytes) (pass : Digest) :
    (ChecksumHolds bytes pass ∧ ∃ k used, decode bytes pass = .ok (k, used)) ∨
      (¬ ChecksumHolds bytes pass ∧ decode bytes pass = .error .wrongPassphrase) := by
  obtain ⟨k, plain, hreads⟩ := h.exists_reads pass
  have hholds : ChecksumHolds bytes pass ↔ _ := checksumHolds_iff hreads.header_eq
  simp only [hreads.plain_eq, Except.ok.injEq, exists_eq_left',
    ← Bytes.slice_eq_bigEndian_iff hreads.length_le (UInt32.toNat_lt _)] at hholds
  rw [hholds]
  by_cases hsum : bytes.slice (checksumStart k.header) checksumSize =
      Bytes.bigEndian checksumSize (Crc32.ofBytes plain).toNat
  · exact Or.inl ⟨hsum, k, _, decode_eq_ok_iff_reads.mpr ⟨rfl, plain, hreads, hsum⟩⟩
  · refine Or.inr ⟨hsum, ?_⟩
    rw [hreads.decode_eq, beq_false_of_ne (Ne.symm hsum)]
    rfl

/-- The reader of private keys accepts the bytes that hold one under a passphrase and no others. If
only the checksum is another one, the passphrase is a wrong one. A key that was read takes up its
stored length, whatever stands behind it, and is written under the same passphrase, with the sixteen
bytes found behind its secrets, as the bytes that it was read from. -/
theorem private_reader_exact (bytes : Bytes) (pass : Digest) :
    ((∃ k used, decode bytes pass = .ok (k, used)) ↔
        Packed bytes ∧ ChecksumHolds bytes pass) ∧
      (Packed bytes → ¬ ChecksumHolds bytes pass → decode bytes pass = .error .wrongPassphrase) ∧
      ∀ k used, decode bytes pass = .ok (k, used) →
        used = k.encodedLength ∧ (∀ rest, decode (bytes.take used ++ rest) pass = .ok (k, used)) ∧
          ∃ iv : Block, iv.toList = bytes.slice (used - 20) 16 ∧
            k.encode pass iv = .ok (bytes.take used) := by
  refine ⟨⟨fun ⟨_, _, hread⟩ => packed_of_decode hread, ?_⟩, ?_, ?_⟩
  · rintro ⟨hpacked, hholds⟩
    rcases hpacked.decode_eq pass with ⟨-, hread⟩ | ⟨hfails, -⟩
    · exact hread
    · exact absurd hholds hfails
  · intro hpacked hfails
    rcases hpacked.decode_eq pass with ⟨hholds, -⟩ | ⟨-, hread⟩
    · exact absurd hholds hfails
    · exact hread
  · intro k used hread
    have hagain := (readsExactly pass).read_take_append hread
    obtain ⟨rfl, plain, h, hsum⟩ := decode_eq_ok_iff_reads.mp hread
    exact ⟨rfl, hagain, h.encode_eq hsum⟩

theorem private_reader_exact_sample : ∃ bytes,
    (Packed bytes ∧ ChecksumHolds bytes .zero) ∧
      decode bytes .zero = .ok (textbook .current 2753, bytes.length) ∧
      ∃ iv : Block, (textbook .current 2753).encode .zero iv = .ok (bytes.take bytes.length) := by
  obtain ⟨bytes, h⟩ := exists_encode_zero (textbook .current 2753) (by decide +kernel)
  have hread := decode_encode_append h (by decide +kernel) ⟨by decide +kernel, by decide +kernel⟩ []
  have hself := (textbook .current 2753).unsigned_eq_self_iff.mpr (by decide +kernel)
  rw [List.append_nil, hself] at hread
  obtain ⟨haccepts, -, hwritten⟩ := private_reader_exact bytes .zero
  obtain ⟨-, -, iv, -, hencode⟩ := hwritten _ _ hread
  exact ⟨bytes, haccepts.mp ⟨_, _, hread⟩, hread, iv, hencode⟩

end Signet.PrivateKey
