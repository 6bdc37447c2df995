import Mathlib
import Signet.Key.Packet
import Signet.Proofs.Cipher.Blockwise
import Signet.Proofs.Integer.Octets
import Signet.Proofs.Key.Header

/-! The stored forms of the two halves of a key pair. What is written is read back with every number
replaced by its absolute value, if the size of the modulus is one that is read at all. Main
statements: `PublicKey.decode_encode_append` and `PrivateKey.decode_encode_append`. -/
namespace Signet

/-- The bytes of the modulus are as many as the header says. -/
theorem KeyHeader.ReadableSize.bits_div {h : KeyHeader} (hsize : h.ReadableSize) :
    h.bits.toNat / 8 = 2 * h.unit := by
  have := hsize.bits_mod
  rw [KeyHeader.unit]
  omega

theorem KeyHeader.ReadableSize.load_modulus {h : KeyHeader} (hsize : h.ReadableSize) {n : Integer}
    (hn : n.toInt.natAbs < 256 ^ (2 * h.unit)) :
    Integer.load (Bytes.bigEndian (2 * h.unit) n.toInt.natAbs) h.bits.toNat = .ok n.abs := by
  have hmod := hsize.bits_mod
  rw [← hsize.bits_div] at hn ⊢
  exact Integer.load_bigEndian_abs (by omega) hsize.bits_le hn

theorem KeyHeader.ReadableSize.exists_load {h : KeyHeader} (hsize : h.ReadableSize) {field : Bytes}
    (hlength : field.length = 2 * h.unit) : ∃ n, Integer.load field h.bits.toNat = .ok n := by
  have hmod := hsize.bits_mod
  exact ⟨_, Integer.load_eq_ok (by omega) hsize.bits_le (by rw [hlength, hsize.bits_div])⟩

/-- A modulus is read only after a header whose size it has. -/
theorem KeyHeader.readableSize_of_load {kind kind' : PacketKind} {h h' : KeyHeader}
    {rest modulus : Bytes} {n : Integer}
    (hread : decode (h.encode kind ++ rest) = .ok (kind', h'))
    (hload : Integer.load modulus h'.bits.toNat = .ok n) : h.ReadableSize := by
  obtain ⟨hbits, hmod⟩ := bits_of_decode hread
  exact ⟨hmod, hbits ▸ Integer.width_le_of_load hload⟩

namespace PublicKey

/-- The key with the absolute value of its modulus, for signs are not written. -/
def unsigned (k : PublicKey) : PublicKey := { k with n := k.n.abs }

theorem unsigned_eq_self_iff (k : PublicKey) : k.unsigned = k ↔ 0 ≤ k.n.toInt := by
  obtain ⟨header, n⟩ := k
  simp only [unsigned, mk.injEq, Integer.abs_eq_self_iff, true_and]

def packet (k : PublicKey) : Bytes :=
  k.header.encode .publicKey ++ Bytes.bigEndian (2 * k.header.unit) k.n.toInt.natAbs

theorem length_packet (k : PublicKey) : k.packet.length = k.encodedLength := by
  rw [packet, List.length_append, KeyHeader.length_encode, Bytes.length_bigEndian, encodedLength]

theorem encode_eq_ok_iff (k : PublicKey) {bytes : Bytes} :
    k.encode = .ok bytes ↔
      k.n.toInt.natAbs < 256 ^ (2 * k.header.unit) ∧ bytes = k.packet := by
  simp only [encode, bind_eq_ok_iff, Integer.toFixedBytes_eq_ok_iff]
  constructor
  · rintro ⟨modulus, ⟨hn, rfl⟩, hbytes⟩
    exact ⟨hn, (Except.ok.inj hbytes).symm⟩
  · rintro ⟨hn, rfl⟩
    exact ⟨_, ⟨hn, rfl⟩, rfl⟩

theorem length_of_encode {k : PublicKey} {bytes : Bytes} (h : k.encode = .ok bytes) :
    bytes.length = k.encodedLength := by
  obtain ⟨-, rfl⟩ := k.encode_eq_ok_iff.mp h
  exact k.length_packet

theorem decode_of_fields {bytes : Bytes} {k : PublicKey}
    (hheader : KeyHeader.decode bytes = .ok (.publicKey, k.header))
    (hlength : k.encodedLength ≤ bytes.length)
    (hmodulus : Integer.load (bytes.slice k.header.encodedLength (2 * k.header.unit))
      k.header.bits.toNat = .ok k.n) : decode bytes = .ok (k, k.encodedLength) := by
  rw [encodedLength] at hlength ⊢
  rw [decode, hheader, ok_bind]
  dsimp only
  rw [hmodulus, decide_eq_true hlength]
  rfl

/-- What was written is read back without a sign, whatever stands behind it. -/
theorem decode_encode_append {k : PublicKey} {bytes : Bytes} (h : k.encode = .ok bytes)
    (hmin : minKeyBits ≤ k.header.bits.toNat) (hsize : k.header.ReadableSize) (rest : Bytes) :
    decode (bytes ++ rest) = .ok (k.unsigned, bytes.length) := by
  obtain ⟨hn, rfl⟩ := k.encode_eq_ok_iff.mp h
  have hload := hsize.load_modulus hn
  have htotal : k.encodedLength ≤ (k.packet ++ rest).length := by
    rw [List.length_append, k.length_packet]
    omega
  have hheader : KeyHeader.decode (k.packet ++ rest) = .ok (.publicKey, k.header) := by
    rw [packet, List.append_assoc]
    exact KeyHeader.decode_encode_append (by decide) k.header hmin hsize.bits_mod _
  have hfront : (k.packet ++ rest).drop k.header.encodedLength =
      Bytes.bigEndian (2 * k.header.unit) k.n.toInt.natAbs ++ rest := by
    rw [packet, List.append_assoc, KeyHeader.drop_encode]
  rw [k.length_packet]
  -- from here on only what stands at the places of the fields matters
  generalize k.packet ++ rest = stored at htotal hheader hfront ⊢
  obtain ⟨modulus_at, -⟩ := Bytes.read_next hfront (Bytes.length_bigEndian ..)
  rw [← modulus_at] at hload
  exact decode_of_fields (k := k.unsigned) hheader htotal hload

/-- Only keys of a readable size come back from what was written. -/
theorem readableSize_of_decode {k k' : PublicKey} {bytes : Bytes} {used : ℕ}
    (h : k.encode = .ok bytes) (hread : decode bytes = .ok (k', used)) :
    k.header.ReadableSize := by
  obtain ⟨-, rfl⟩ := k.encode_eq_ok_iff.mp h
  obtain ⟨hheader, -, hload⟩ := of_decode hread
  exact KeyHeader.readableSize_of_load hheader hload

end PublicKey

namespace PrivateKey

/-- The key with the absolute values of its numbers, for signs are not written. -/
def unsigned (k : PrivateKey) : PrivateKey :=
  { k with
    n := k.n.abs, d := k.d.abs, p := k.p.abs, q := k.q.abs
    dp := k.dp.abs, dq := k.dq.abs, qInv := k.qInv.abs }

theorem unsigned_eq_self_iff (k : PrivateKey) :
    k.unsigned = k ↔ 0 ≤ k.n.toInt ∧ 0 ≤ k.d.toInt ∧ 0 ≤ k.p.toInt ∧ 0 ≤ k.q.toInt ∧
      0 ≤ k.dp.toInt ∧ 0 ≤ k.dq.toInt ∧ 0 ≤ k.qInv.toInt := by
  obtain ⟨header, n, d, p, q, dp, dq, qInv⟩ := k
  simp only [unsigned, mk.injEq, Integer.abs_eq_self_iff, true_and]

/-- The secrets do not need more bytes than they are given. -/
@[mk_iff]
structure SecretsFit (k : PrivateKey) : Prop where
  d_lt : k.d.toInt.natAbs < 256 ^ (2 * k.header.unit)
  p_lt : k.p.toInt.natAbs < 256 ^ k.header.unit
  q_lt : k.q.toInt.natAbs < 256 ^ k.header.unit
  dp_lt : k.dp.toInt.natAbs < 256 ^ k.header.unit
  dq_lt : k.dq.toInt.natAbs < 256 ^ k.header.unit
  qInv_lt : k.qInv.toInt.natAbs < 256 ^ k.header.unit

instance (k : PrivateKey) : Decidable k.SecretsFit := decidable_of_iff' _ (secretsFit_iff k)

/-- The secrets before they are enciphered, each in its width. -/
def plainSecrets (k : PrivateKey) : Bytes :=
  Bytes.bigEndian (2 * k.header.unit) k.d.toInt.natAbs ++
    (Bytes.bigEndian k.header.unit k.p.toInt.natAbs ++
      (Bytes.bigEndian k.header.unit k.q.toInt.natAbs ++
        (Bytes.bigEndian k.header.unit k.dp.toInt.natAbs ++
          (Bytes.bigEndian k.header.unit k.dq.toInt.natAbs ++
            Bytes.bigEndian k.header.unit k.qInv.toInt.natAbs))))

@[simp] theorem length_plainSecrets (k : PrivateKey) :
    k.plainSecrets.length = secretUnits * k.header.unit := by
  simp only [plainSecrets, List.length_append, Bytes.length_bigEndian, secretUnits]
  omega

theorem secrets_eq_ok_iff (k : PrivateKey) {plain : Bytes} :
    k.secrets = .ok plain ↔ k.SecretsFit ∧ plain = k.plainSecrets := by
  simp only [secrets, bind_eq_ok_iff, Integer.toFixedBytes_eq_ok_iff]
  constructor
  · rintro ⟨_, ⟨hd, rfl⟩, _, ⟨hp, rfl⟩, _, ⟨hq, rfl⟩, _, ⟨hdp, rfl⟩, _, ⟨hdq, rfl⟩, _,
      ⟨hqInv, rfl⟩, hplain⟩
    refine ⟨⟨hd, hp, hq, hdp, hdq, hqInv⟩, ?_⟩
    rw [← Except.ok.inj hplain, plainSecrets]
    simp only [List.append_assoc]
  · rintro ⟨h, rfl⟩
    refine ⟨_, ⟨h.d_lt, rfl⟩, _, ⟨h.p_lt, rfl⟩, _, ⟨h.q_lt, rfl⟩, _, ⟨h.dp_lt, rfl⟩, _,
      ⟨h.dq_lt, rfl⟩, _, ⟨h.qInv_lt, rfl⟩, ?_⟩
    rw [plainSecrets]
    simp only [List.append_assoc]
    rfl

/-- A secret at the front of what is left is read without its sign, and the next one follows. -/
theorem secretAt_eq_ok {plain rest : Bytes} {start width : ℕ} {x : Integer} (next : ℕ)
    (h : plain.drop start = Bytes.bigEndian width x.toInt.natAbs ++ rest)
    (hlt : x.toInt.natAbs < 256 ^ width) (hmax : 8 * width ≤ Integer.maxBits)
    (hnext : start + width = next) :
    secretAt plain start width = .ok x.abs ∧ plain.drop next = rest := by
  obtain ⟨field_at, hrest⟩ := Bytes.read_next h (Bytes.length_bigEndian ..)
  -- the reader is told a width in binary digits, and makes bytes of it again
  have hwidth : 8 * width / 8 = width := by omega
  have hload : Integer.load (Bytes.bigEndian (8 * width / 8) x.toInt.natAbs) (8 * width) =
      .ok x.abs := Integer.load_bigEndian_abs (by omega) hmax (hwidth.symm ▸ hlt)
  rw [hwidth] at hload
  rw [secretAt, field_at, ← hnext]
  exact ⟨hload, hrest⟩

/-- The secrets of a key stand in a row of deciphered bytes, each where it is looked for. -/
structure HasSecrets (k : PrivateKey) (plain : Bytes) : Prop where
  d_eq : secretAt plain 0 (2 * k.header.unit) = .ok k.d
  p_eq : secretAt plain (2 * k.header.unit) k.header.unit = .ok k.p
  q_eq : secretAt plain (3 * k.header.unit) k.header.unit = .ok k.q
  dp_eq : secretAt plain (4 * k.header.unit) k.header.unit = .ok k.dp
  dq_eq : secretAt plain (5 * k.header.unit) k.header.unit = .ok k.dq
  qInv_eq : secretAt plain (6 * k.header.unit) k.header.unit = .ok k.qInv

theorem SecretsFit.hasSecrets {k : PrivateKey} (h : k.SecretsFit)
    (hsize : k.header.ReadableSize) : k.unsigned.HasSecrets k.plainSecrets := by
  have hlong : 8 * (2 * k.header.unit) ≤ Integer.maxBits := by
    have := hsize.bits_le
    rw [KeyHeader.unit]
    omega
  have hshort : 8 * k.header.unit ≤ Integer.maxBits := by omega
  -- the secrets are read one behind the other, and each leaves what follows it
  generalize hread : k.plainSecrets = plain
  have hplain : plain.drop 0 = k.plainSecrets ++ [] := by
    rw [hread, List.append_nil, List.drop_zero]
  simp only [plainSecrets, List.append_assoc] at hplain
  obtain ⟨d_eq, hplain⟩ := secretAt_eq_ok (2 * k.header.unit) hplain h.d_lt hlong (by omega)
  obtain ⟨p_eq, hplain⟩ := secretAt_eq_ok (3 * k.header.unit) hplain h.p_lt hshort (by omega)
  obtain ⟨q_eq, hplain⟩ := secretAt_eq_ok (4 * k.header.unit) hplain h.q_lt hshort (by omega)
  obtain ⟨dp_eq, hplain⟩ := secretAt_eq_ok (5 * k.header.unit) hplain h.dp_lt hshort (by omega)
  obtain ⟨dq_eq, hplain⟩ := secretAt_eq_ok (6 * k.header.unit) hplain h.dq_lt hshort (by omega)
  obtain ⟨qInv_eq, -⟩ := secretAt_eq_ok (7 * k.header.unit) hplain h.qInv_lt hshort (by omega)
  exact ⟨d_eq, p_eq, q_eq, dp_eq, dq_eq, qInv_eq⟩

/-- The stored form around secrets that are enciphered already. -/
def packet (k : PrivateKey) (enciphered : Bytes) (iv : Block) : Bytes :=
  k.header.encode .privateKey ++ (Bytes.bigEndian (2 * k.header.unit) k.n.toInt.natAbs ++
    (enciphered ++ (iv.toList ++
      Bytes.bigEndian checksumSize (Crc32.ofBytes k.plainSecrets).toNat)))

theorem encode_eq_ok_iff (k : PrivateKey) {pass : Digest} {iv : Block} {bytes : Bytes} :
    k.encode pass iv = .ok bytes ↔ k.n.toInt.natAbs < 256 ^ (2 * k.header.unit) ∧ k.SecretsFit ∧
      ∃ enciphered, encrypt pass k.plainSecrets = .ok enciphered ∧
        bytes = k.packet enciphered iv := by
  simp only [encode, bind_eq_ok_iff, Integer.toFixedBytes_eq_ok_iff, secrets_eq_ok_iff]
  constructor
  · rintro ⟨_, ⟨hn, rfl⟩, _, ⟨hfit, rfl⟩, enciphered, henc, hbytes⟩
    refine ⟨hn, hfit, enciphered, henc, ?_⟩
    rw [← Except.ok.inj hbytes, packet]
    simp only [List.append_assoc]
  · rintro ⟨hn, hfit, enciphered, henc, rfl⟩
    refine ⟨_, ⟨hn, rfl⟩, _, ⟨hfit, rfl⟩, enciphered, henc, ?_⟩
    rw [packet]
    simp only [List.append_assoc]
    rfl

/-- A key can be written when its numbers fit and its secrets fill whole blocks of the cipher. -/
theorem exists_encode_iff (k : PrivateKey) (pass : Digest) (iv : Block) :
    (∃ bytes, k.encode pass iv = .ok bytes) ↔
      k.n.toInt.natAbs < 256 ^ (2 * k.header.unit) ∧ k.SecretsFit ∧ k.header.unit % 16 = 0 := by
  -- seven units make whole blocks of sixteen bytes only when one unit does
  have hblocks : (∃ enciphered, encrypt pass k.plainSecrets = .ok enciphered) ↔
      k.header.unit % 16 = 0 := by
    rw [encrypt, Blockwise.exists_apply_iff, length_plainSecrets, secretUnits]
    omega
  rw [← hblocks]
  constructor
  · rintro ⟨bytes, h⟩
    obtain ⟨hn, hfit, enciphered, henc, -⟩ := k.encode_eq_ok_iff.mp h
    exact ⟨hn, hfit, enciphered, henc⟩
  · rintro ⟨hn, hfit, enciphered, henc⟩
    exact ⟨_, k.encode_eq_ok_iff.mpr ⟨hn, hfit, enciphered, henc, rfl⟩⟩

theorem length_of_encrypt (k : PrivateKey) {pass : Digest} {enciphered : Bytes}
    (h : encrypt pass k.plainSecrets = .ok enciphered) :
    enciphered.length = secretUnits * k.header.unit := by
  rw [Blockwise.length_eq_of_apply h, length_plainSecrets]

theorem length_packet (k : PrivateKey) (iv : Block) {enciphered : Bytes}
    (h : enciphered.length = secretUnits * k.header.unit) :
    (k.packet enciphered iv).length = k.encodedLength := by
  rw [encodedLength_eq, packet]
  simp only [List.length_append, KeyHeader.length_encode, Bytes.length_bigEndian, h,
    Vector.length_toList, ivSize, Nat.add_assoc]

theorem length_of_encode {k : PrivateKey} {pass : Digest} {iv : Block} {bytes : Bytes}
    (h : k.encode pass iv = .ok bytes) : bytes.length = k.encodedLength := by
  obtain ⟨-, -, enciphered, henc, rfl⟩ := k.encode_eq_ok_iff.mp h
  exact k.length_packet iv (k.length_of_encrypt henc)

/-- Where the checksum of the secrets is stored. -/
def checksumStart (h : KeyHeader) : ℕ :=
  h.encodedLength + 2 * h.unit + secretUnits * h.unit + ivSize

/-- What stands at the places of the fields where a key was stored around secrets that were
enciphered already. -/
structure Stores (bytes : Bytes) (k : PrivateKey) (enciphered : Bytes) : Prop where
  header_eq : KeyHeader.decode bytes = .ok (.privateKey, k.header)
  length_le : checksumStart k.header + checksumSize ≤ bytes.length
  modulus_at : bytes.slice k.header.encodedLength (2 * k.header.unit) =
    Bytes.bigEndian (2 * k.header.unit) k.n.toInt.natAbs
  secrets_at : bytes.slice (k.header.encodedLength + 2 * k.header.unit)
    (secretUnits * k.header.unit) = enciphered
  checksum_at : bytes.slice (checksumStart k.header) checksumSize =
    Bytes.bigEndian checksumSize (Crc32.ofBytes k.plainSecrets).toNat

theorem stores_packet_append (k : PrivateKey) {enciphered : Bytes}
    (h : enciphered.length = secretUnits * k.header.unit)
    (hmin : minKeyBits ≤ k.header.bits.toNat) (hmod : k.header.bits.toNat % 16 = 0) (iv : Block)
    (rest : Bytes) : Stores (k.packet enciphered iv ++ rest) k enciphered := by
  have htotal : k.encodedLength ≤ (k.packet enciphered iv ++ rest).length := by
    rw [List.length_append, k.length_packet iv h]
    omega
  rw [encodedLength_eq] at htotal
  have hfront : (k.packet enciphered iv ++ rest).drop k.header.encodedLength =
      Bytes.bigEndian (2 * k.header.unit) k.n.toInt.natAbs ++ (enciphered ++ (iv.toList ++
        (Bytes.bigEndian checksumSize (Crc32.ofBytes k.plainSecrets).toNat ++ rest))) := by
    simp only [packet, List.append_assoc]
    exact KeyHeader.drop_encode ..
  have hheader : KeyHeader.decode (k.packet enciphered iv ++ rest) =
      .ok (.privateKey, k.header) := by
    rw [packet, List.append_assoc]
    exact KeyHeader.decode_encode_append (by decide) k.header hmin hmod _
  -- each field is read from where the one before it ends
  generalize k.packet enciphered iv ++ rest = stored at htotal hfront hheader ⊢
  obtain ⟨modulus_at, hrest⟩ := Bytes.read_next hfront (Bytes.length_bigEndian ..)
  obtain ⟨secrets_at, hrest⟩ := Bytes.read_next hrest h
  obtain ⟨-, hrest⟩ := Bytes.read_next hrest (show iv.toList.length = ivSize from iv.length_toList)
  obtain ⟨checksum_at, -⟩ := Bytes.read_next hrest (Bytes.length_bigEndian ..)
  exact ⟨hheader, htotal, modulus_at, secrets_at, checksum_at⟩

/-- What a reader finds at the places of the fields, apart from the checksum. -/
structure Reads (bytes : Bytes) (pass : Digest) (k : PrivateKey) (plain : Bytes) : Prop where
  header_eq : KeyHeader.decode bytes = .ok (.privateKey, k.header)
  length_le : checksumStart k.header + checksumSize ≤ bytes.length
  modulus_eq : Integer.load (bytes.slice k.header.encodedLength (2 * k.header.unit))
    k.header.bits.toNat = .ok k.n
  plain_eq : decrypt pass (bytes.slice (k.header.encodedLength + 2 * k.header.unit)
    (secretUnits * k.header.unit)) = .ok plain
  secrets : k.HasSecrets plain

/-- With the fields at their places, the reader leaves it to the checksum. -/
theorem Reads.decode_eq {bytes : Bytes} {pass : Digest} {k : PrivateKey} {plain : Bytes}
    (h : Reads bytes pass k plain) :
    decode bytes pass = (do
      require (Bytes.bigEndian checksumSize (Crc32.ofBytes plain).toNat ==
        bytes.slice (checksumStart k.header) checksumSize) .wrongPassphrase
      return (k, k.encodedLength)) := by
  have hlength := h.length_le
  have hopen : openSecrets pass (bytes.slice (k.header.encodedLength + 2 * k.header.unit)
      (secretUnits * k.header.unit)) = .ok plain := by
    rw [openSecrets, h.plain_eq]
  rw [checksumStart] at hlength ⊢
  rw [decode, h.header_eq, ok_bind]
  dsimp only
  rw [decide_eq_true hlength, h.modulus_eq, hopen]
  simp only [beq_self_eq_true, require_true, ok_bind]
  rw [h.secrets.d_eq, h.secrets.p_eq, h.secrets.q_eq, h.secrets.dp_eq, h.secrets.dq_eq,
    h.secrets.qInv_eq, encodedLength_eq]
  rfl

/-- The reader gives a private key exactly where it finds one with its checksum. -/
theorem decode_eq_ok_iff_reads {bytes : Bytes} {pass : Digest} {k : PrivateKey} {used : ℕ} :
    decode bytes pass = .ok (k, used) ↔ used = k.encodedLength ∧ ∃ plain,
      Reads bytes pass k plain ∧
        bytes.slice (checksumStart k.header) checksumSize =
          Bytes.bigEndian checksumSize (Crc32.ofBytes plain).toNat := by
  constructor
  · intro hread
    obtain ⟨hheader, ⟨rfl, hlength⟩, hload⟩ := of_decode hread
    simp only [decode, bind_eq_ok_iff, require_eq_ok_iff, beq_iff_eq] at hread
    obtain ⟨⟨kind, header⟩, -, _, -, _, -, n, -, plain, hopen, _, hsum, d, hd, p, hp, q, hq, dp,
      hdp, dq, hdq, qInv, hqInv, hread⟩ := hread
    obtain ⟨rfl, -⟩ := Prod.mk.inj (Except.ok.inj hread)
    rw [encodedLength_eq] at hlength
    rw [openSecrets] at hopen
    split at hopen
    · next hplain =>
      obtain rfl := Except.ok.inj hopen
      exact ⟨rfl, _, ⟨hheader, hlength, hload, hplain, hd, hp, hq, hdp, hdq, hqInv⟩, hsum.symm⟩
    · cases hopen
  · rintro ⟨rfl, plain, h, hsum⟩
    rw [h.decode_eq, hsum, beq_self_eq_true]
    rfl

/-- What was written is read back without signs, whatever stands behind it. -/
theorem decode_encode_append {k : PrivateKey} {pass : Digest} {iv : Block} {bytes : Bytes}
    (h : k.encode pass iv = .ok bytes) (hmin : minKeyBits ≤ k.header.bits.toNat)
    (hsize : k.header.ReadableSize) (rest : Bytes) :
    decode (bytes ++ rest) pass = .ok (k.unsigned, bytes.length) := by
  have hlength := length_of_encode h
  obtain ⟨hn, hfit, enciphered, henc, rfl⟩ := k.encode_eq_ok_iff.mp h
  have hstores := k.stores_packet_append (k.length_of_encrypt henc) hmin hsize.bits_mod iv rest
  have hload := hsize.load_modulus hn
  have hplain := decrypt_encrypt henc
  rw [← hstores.modulus_at] at hload
  rw [← hstores.secrets_at] at hplain
  rw [hlength]
  exact decode_eq_ok_iff_reads.mpr ⟨rfl, k.plainSecrets,
    ⟨hstores.header_eq, hstores.length_le, hload, hplain, hfit.hasSecrets hsize⟩,
    hstores.checksum_at⟩

/-- Nothing is read from a packet of a size that is not read at all, under any passphrase. -/
theorem readableSize_of_decode_packet {k k' : PrivateKey} {enciphered rest : Bytes} {iv : Block}
    {pass : Digest} {used : ℕ}
    (hread : decode (k.packet enciphered iv ++ rest) pass = .ok (k', used)) :
    minKeyBits ≤ k.header.bits.toNat ∧ k.header.ReadableSize := by
  obtain ⟨hheader, -, hload⟩ := of_decode hread
  obtain ⟨-, ⟨hmin, -⟩, -⟩ := KeyHeader.decode_eq_ok hheader
  rw [packet, List.append_assoc] at hheader
  obtain ⟨hbits, -⟩ := KeyHeader.bits_of_decode hheader
  exact ⟨hbits ▸ hmin, KeyHeader.readableSize_of_load hheader hload⟩

/-- Only keys of a readable size come back from what was written. -/
theorem readableSize_of_decode {k k' : PrivateKey} {pass pass' : Digest} {iv : Block}
    {bytes : Bytes} {used : ℕ} (h : k.encode pass iv = .ok bytes)
    (hread : decode bytes pass' = .ok (k', used)) : k.header.ReadableSize := by
  obtain ⟨-, -, enciphered, -, rfl⟩ := k.encode_eq_ok_iff.mp h
  rw [← List.append_nil (k.packet enciphered iv)] at hread
  exact (readableSize_of_decode_packet hread).2

end PrivateKey
end Signet
