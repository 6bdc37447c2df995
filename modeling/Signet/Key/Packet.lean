import Signet.Checksum
import Signet.Cipher.Blockwise
import Signet.Integer.Octets
import Signet.Key.Basic
/-!
The stored forms of keys. A public key is its header and its modulus. A private key goes on with its
secrets, enciphered under a digest of a passphrase, then with sixteen bytes that the owner chooses
and the checksum of the secrets. Main statements: `of_decode` for each reader.
-/
namespace Signet

namespace PublicKey

def encodedLength (k : PublicKey) : Nat := k.header.encodedLength + 2 * k.header.unit

def encode (k : PublicKey) : Except Error Bytes := do
  let modulus ← k.n.toFixedBytes (2 * k.header.unit)
  return k.header.encode .publicKey ++ modulus

/-- Reads a public key from the front of a byte string, with the number of bytes read. -/
def decode (bytes : Bytes) : Except Error (PublicKey × Nat) := do
  let (kind, header) ← KeyHeader.decode bytes
  require (kind == .publicKey) .malformed
  let total := header.encodedLength + 2 * header.unit
  require (decide (total ≤ bytes.length)) .malformed
  let n ← Integer.load (bytes.slice header.encodedLength (2 * header.unit)) header.bits.toNat
  return ({ header, n }, total)

/-- What was read has a header of the right kind and takes up its stored length. -/
theorem of_decode {bytes : Bytes} {k : PublicKey} {used : Nat} (h : decode bytes = .ok (k, used)) :
    KeyHeader.decode bytes = .ok (.publicKey, k.header) ∧
      (used = k.encodedLength ∧ used ≤ bytes.length) ∧
      Integer.load (bytes.slice k.header.encodedLength (2 * k.header.unit))
        k.header.bits.toNat = .ok k.n := by
  simp only [decode, bind_eq_ok_iff, require_eq_ok_iff] at h
  obtain ⟨⟨kind, header⟩, hheader, _, hkind, _, htotal, n, hload, h⟩ := h
  obtain ⟨rfl, rfl⟩ := Prod.mk.inj (Except.ok.inj h)
  obtain rfl := beq_iff_eq.mp hkind
  exact ⟨hheader, ⟨rfl, of_decide_eq_true htotal⟩, hload⟩

end PublicKey

namespace PrivateKey

def ivSize : Nat := 16

def checksumSize : Nat := 4

/-- How many units the secrets take: two for the exponent and one for each other number. -/
def secretUnits : Nat := 7

def encodedLength (k : PrivateKey) : Nat :=
  k.header.encodedLength + (2 + secretUnits) * k.header.unit + ivSize + checksumSize

def secrets (k : PrivateKey) : Except Error Bytes := do
  let unit := k.header.unit
  let d ← k.d.toFixedBytes (2 * unit)
  let p ← k.p.toFixedBytes unit
  let q ← k.q.toFixedBytes unit
  let dp ← k.dp.toFixedBytes unit
  let dq ← k.dq.toFixedBytes unit
  let qInv ← k.qInv.toFixedBytes unit
  return d ++ p ++ q ++ dp ++ dq ++ qInv

/-- The stored form under a digest of a passphrase. The secrets fill whole blocks of the cipher
only when the size of the modulus is a multiple of 256; other sizes are refused. -/
def encode (k : PrivateKey) (pass : Digest) (iv : Block) : Except Error Bytes := do
  let modulus ← k.n.toFixedBytes (2 * k.header.unit)
  let plain ← k.secrets
  let enciphered ← encrypt pass plain
  return k.header.encode .privateKey ++ modulus ++ enciphered ++ iv.toList ++
    Bytes.bigEndian checksumSize (Crc32.ofBytes plain).toNat

/-- Deciphers the secrets; a part of a block at the end means that they are malformed. -/
def openSecrets (pass : Digest) (enciphered : Bytes) : Except Error Bytes :=
  match decrypt pass enciphered with
  | .ok plain => .ok plain
  | .error _ => .error .malformed

def secretAt (plain : Bytes) (start length : Nat) : Except Error Integer :=
  Integer.load (plain.slice start length) (8 * length)

/-- Reads a private key from the front of a byte string, with the number of bytes read. -/
def decode (bytes : Bytes) (pass : Digest) : Except Error (PrivateKey × Nat) := do
  let (kind, header) ← KeyHeader.decode bytes
  require (kind == .privateKey) .malformed
  let unit := header.unit
  let modulusEnd := header.encodedLength + 2 * unit
  let secretsEnd := modulusEnd + secretUnits * unit
  let total := secretsEnd + ivSize + checksumSize
  require (decide (total ≤ bytes.length)) .malformed
  let n ← Integer.load (bytes.slice header.encodedLength (2 * unit)) header.bits.toNat
  let plain ← openSecrets pass (bytes.slice modulusEnd (secretUnits * unit))
  -- under a wrong passphrase the secrets come out as noise, which the checksum shows
  let stored := bytes.slice (secretsEnd + ivSize) checksumSize
  require (Bytes.bigEndian checksumSize (Crc32.ofBytes plain).toNat == stored) .wrongPassphrase
  let d ← secretAt plain 0 (2 * unit)
  let p ← secretAt plain (2 * unit) unit
  let q ← secretAt plain (3 * unit) unit
  let dp ← secretAt plain (4 * unit) unit
  let dq ← secretAt plain (5 * unit) unit
  let qInv ← secretAt plain (6 * unit) unit
  return ({ header, n, d, p, q, dp, dq, qInv }, total)

theorem encodedLength_eq (k : PrivateKey) :
    k.encodedLength = k.header.encodedLength + 2 * k.header.unit + secretUnits * k.header.unit +
      ivSize + checksumSize := by
  rw [encodedLength, Nat.add_mul, ← Nat.add_assoc]

/-- What was read has a header of the right kind and takes up its stored length; of the secrets
nothing is said here. -/
theorem of_decode {bytes : Bytes} {pass : Digest} {k : PrivateKey} {used : Nat}
    (h : decode bytes pass = .ok (k, used)) :
    KeyHeader.decode bytes = .ok (.privateKey, k.header) ∧
      (used = k.encodedLength ∧ used ≤ bytes.length) ∧
      Integer.load (bytes.slice k.header.encodedLength (2 * k.header.unit))
        k.header.bits.toNat = .ok k.n := by
  simp only [decode, bind_eq_ok_iff, require_eq_ok_iff] at h
  obtain ⟨⟨kind, header⟩, hheader, _, hkind, _, htotal, n, hload, plain, -, _, -, d, -, p, -, q, -,
    dp, -, dq, -, qInv, -, h⟩ := h
  obtain ⟨rfl, rfl⟩ := Prod.mk.inj (Except.ok.inj h)
  obtain rfl := beq_iff_eq.mp hkind
  have hlength := encodedLength_eq { header, n, d, p, q, dp, dq, qInv }
  exact ⟨hheader, ⟨hlength.symm, of_decide_eq_true htotal⟩, hload⟩

end PrivateKey

namespace Key

def encodedLength : Key → Nat
  | pub k => k.encodedLength
  | priv k => k.encodedLength

/-- Reads either half from the front of a byte string, with the number of bytes read. A private
key needs the digest of its passphrase. -/
def decode (bytes : Bytes) (pass : Option Digest) : Except Error (Key × Nat) := do
  let (kind, _) ← KeyHeader.decode bytes
  match kind, pass with
  | .publicKey, _ =>
    let (k, used) ← PublicKey.decode bytes
    return (pub k, used)
  | .privateKey, some pass =>
    let (k, used) ← PrivateKey.decode bytes pass
    return (priv k, used)
  | .privateKey, none => throw .invalidParameter
  | .signature, _ => throw .malformed

/-- What a reader of one kind of key reads, a reader of both kinds reads as well. -/
theorem decode_of_public {bytes : Bytes} {pass : Option Digest} {k : PublicKey} {used : Nat}
    (h : PublicKey.decode bytes = .ok (k, used)) : decode bytes pass = .ok (pub k, used) := by
  rw [decode, (PublicKey.of_decode h).1, ok_bind]
  dsimp only
  rw [h]
  rfl

theorem decode_of_private {bytes : Bytes} {pass : Digest} {k : PrivateKey} {used : Nat}
    (h : PrivateKey.decode bytes pass = .ok (k, used)) :
    decode bytes (some pass) = .ok (priv k, used) := by
  rw [decode, (PrivateKey.of_decode h).1, ok_bind]
  dsimp only
  rw [h]
  rfl

end Key
end Signet
