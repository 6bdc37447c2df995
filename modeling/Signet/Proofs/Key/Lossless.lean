import Mathlib
import Signet.Proofs.Key.Permutation
import Signet.Proofs.Key.Storage

/-! Which checked keys come back from storage. The check of a private key leaves the signs of some
numbers open, and that of a modulus leaves its size open above the smallest one; neither is asked
for again when the key is written. Main statements: `PrivateKey.lossless_iff` and
`stored_readable_iff`. -/
namespace Signet

namespace PublicKey

theorem ofParts_eq_ok {header : KeyHeader} {n : Integer} {k : PublicKey}
    (h : ofParts header n = .ok k) : k.header.allowsModulus k.n = true := by
  rw [ofParts, bind_eq_ok_iff] at h
  obtain ⟨u, hallows, h⟩ := h
  obtain rfl := Except.ok.inj h
  exact require_eq_ok_iff.mp hallows

/-- A checked public key that was written comes back when its size is a readable one. -/
theorem readable_iff {header : KeyHeader} {n : Integer} {k : PublicKey}
    (haccepted : ofParts header n = .ok k) {bytes : Bytes} (h : k.encode = .ok bytes) :
    (∃ k', decode bytes = .ok (k', bytes.length)) ↔ k.header.ReadableSize := by
  obtain ⟨hmin, -⟩ := (PrivateKey.allowsModulus_iff _ _).mp (ofParts_eq_ok haccepted)
  constructor
  · rintro ⟨k', hread⟩
    exact readableSize_of_decode h hread
  · intro hsize
    have hread := decode_encode_append h hmin hsize []
    rw [List.append_nil] at hread
    exact ⟨_, hread⟩

end PublicKey

namespace PrivateKey

variable {header : KeyHeader} {n d p q dp dq qInv : Integer} {k : PrivateKey}
  (haccepted : ofParts header n d p q dp dq qInv = .ok k) {pass : Digest} {iv : Block}
  {bytes : Bytes} (h : k.encode pass iv = .ok bytes)

include haccepted h in
theorem decode_encode (hsize : k.header.ReadableSize) :
    decode bytes pass = .ok (k.unsigned, bytes.length) := by
  have hread := decode_encode_append h (ofParts_eq_ok haccepted).minKeyBits_le hsize []
  rwa [List.append_nil] at hread

include haccepted h in
/-- A checked private key that was written comes back when its size is a readable one. -/
theorem readable_iff :
    (∃ k', decode bytes pass = .ok (k', bytes.length)) ↔ k.header.ReadableSize :=
  ⟨fun ⟨_, hread⟩ => readableSize_of_decode h hread,
    fun hsize => ⟨_, decode_encode haccepted h hsize⟩⟩

include h in
/-- The blocks of the cipher leave sizes that are 15 or less above a multiple of 256. -/
theorem bits_mod_of_encode : k.header.bits.toNat % 256 < 16 := by
  obtain ⟨-, -, hblocks⟩ := (k.exists_encode_iff pass iv).mp ⟨bytes, h⟩
  -- a unit is rounded down, and what is lost is not looked at
  rw [KeyHeader.unit] at hblocks
  omega

theorem unsigned_eq_self_iff_of_sound (hsound : k.Sound) :
    k.unsigned = k ↔
      0 ≤ k.d.toInt ∧ 0 ≤ k.dp.toInt ∧ 0 ≤ k.dq.toInt ∧ 0 ≤ k.qInv.toInt := by
  have hn := hsound.one_lt_n
  have hp := hsound.two_lt_p
  have hq := hsound.two_lt_q
  -- the modulus and its factors are positive in a sound key
  rw [unsigned_eq_self_iff]
  constructor
  · rintro ⟨-, hd, -, -, hcrt⟩
    exact ⟨hd, hcrt⟩
  · rintro ⟨hd, hcrt⟩
    exact ⟨by omega, hd, by omega, by omega, hcrt⟩

include haccepted h in
/-- A checked private key whose size is a multiple of 256 comes back as it was exactly when that
size is not beyond the largest one and none of its numbers is negative. -/
theorem lossless_iff (hblocks : k.header.bits.toNat % 256 = 0) :
    decode bytes pass = .ok (k, bytes.length) ↔ k.header.bits.toNat ≤ Integer.maxBits ∧
      0 ≤ k.d.toInt ∧ 0 ≤ k.dp.toInt ∧ 0 ≤ k.dq.toInt ∧ 0 ≤ k.qInv.toInt := by
  rw [← unsigned_eq_self_iff_of_sound (ofParts_eq_ok haccepted)]
  constructor
  · intro hread
    have hsize := readableSize_of_decode h hread
    -- what comes back is the key without signs, so that the two must be the same
    rw [decode_encode haccepted h hsize] at hread
    exact ⟨hsize.bits_le, (Prod.mk.inj (Except.ok.inj hread)).1⟩
  · rintro ⟨hmax, hself⟩
    have hread := decode_encode haccepted h ⟨by omega, hmax⟩
    rwa [hself] at hread

section Textbook

/-- The textbook key with another inverse of 53 to the modulus 61, a negative one. -/
def textbookNegative : PrivateKey := { textbook .current 2753 with qInv := .ofInt64 (-23) }

/-- The textbook key with a size of choice in its header. -/
def textbookSized (bits : UInt32) : PrivateKey :=
  { textbook .current 2753 with header := { textbookHeader .current with bits } }

theorem exists_encode_zero (k : PrivateKey)
    (h : k.n.toInt.natAbs < 256 ^ (2 * k.header.unit) ∧ k.SecretsFit ∧ k.header.unit % 16 = 0) :
    ∃ bytes, k.encode .zero (.replicate 16 0) = .ok bytes := (k.exists_encode_iff _ _).mpr h

theorem lossless_textbook : ∃ bytes,
    (textbook .current 2753).encode .zero (.replicate 16 0) = .ok bytes ∧
      decode bytes .zero = .ok (textbook .current 2753, bytes.length) := by
  obtain ⟨bytes, h⟩ := exists_encode_zero (textbook .current 2753) (by decide +kernel)
  have haccepted := ofParts_of_isSound (k := textbook .current 2753) (by decide +kernel)
  exact ⟨bytes, h, (lossless_iff haccepted h (by decide +kernel)).mpr (by decide +kernel)⟩

/-- A checked key with the inverse -23 is written and comes back with 23, which is no inverse. -/
theorem textbookNegative_lossy :
    ofParts textbookNegative.header (.ofUInt64 3233) (.ofUInt64 2753) (.ofUInt64 61) (.ofUInt64 53)
        (.ofUInt64 53) (.ofUInt64 49) (.ofInt64 (-23)) = .ok textbookNegative ∧
      textbookNegative.header.bits.toNat % 256 = 0 ∧
      ∃ bytes, textbookNegative.encode .zero (.replicate 16 0) = .ok bytes ∧
        decode bytes .zero =
          .ok ({ textbookNegative with qInv := .ofUInt64 23 }, bytes.length) ∧
        { textbookNegative with qInv := .ofUInt64 23 } ≠ textbookNegative ∧
        { textbookNegative with qInv := .ofUInt64 23 }.validate = .error .invalidParameter := by
  have haccepted := ofParts_of_isSound (k := textbookNegative) (by decide +kernel)
  obtain ⟨bytes, h⟩ := exists_encode_zero textbookNegative (by decide +kernel)
  have hread := decode_encode haccepted h ⟨by decide +kernel, by decide +kernel⟩
  have hunsigned : textbookNegative.unsigned = { textbookNegative with qInv := .ofUInt64 23 } := by
    decide +kernel
  rw [hunsigned] at hread
  exact ⟨haccepted, by decide +kernel, bytes, h, hread, by decide +kernel, by decide +kernel⟩

end Textbook

end PrivateKey

/-- A checked key that was written is read, to the end of what was written, exactly when the size of
its modulus is a multiple of 16 and not beyond the largest one. For private keys that are written
such a multiple is one of 256. -/
theorem stored_readable_iff (pass : Digest) (iv : Block) :
    (∀ (header : KeyHeader) (n : Integer) (k : PublicKey) (bytes : Bytes),
      PublicKey.ofParts header n = .ok k → k.encode = .ok bytes →
        ((∃ k', PublicKey.decode bytes = .ok (k', bytes.length)) ↔
          k.header.bits.toNat % 16 = 0 ∧ k.header.bits.toNat ≤ Integer.maxBits)) ∧
    ∀ (header : KeyHeader) (n d p q dp dq qInv : Integer) (k : PrivateKey) (bytes : Bytes),
      PrivateKey.ofParts header n d p q dp dq qInv = .ok k → k.encode pass iv = .ok bytes →
        ((∃ k', PrivateKey.decode bytes pass = .ok (k', bytes.length)) ↔
          k.header.bits.toNat % 16 = 0 ∧ k.header.bits.toNat ≤ Integer.maxBits) ∧
        (k.header.bits.toNat % 256 = 0 ↔ k.header.bits.toNat % 16 = 0) := by
  constructor
  · intro header n k bytes haccepted h
    rw [PublicKey.readable_iff haccepted h, KeyHeader.readableSize_iff]
  · intro header n d p q dp dq qInv k bytes haccepted h
    have hblocks := PrivateKey.bits_mod_of_encode h
    rw [PrivateKey.readable_iff haccepted h, KeyHeader.readableSize_iff]
    exact ⟨Iff.rfl, by omega⟩

open PrivateKey in
theorem stored_readable_textbook : ∃ publicBytes privateBytes,
    (textbookSized 512).toPublic.encode = .ok publicBytes ∧
      (∃ k', PublicKey.decode publicBytes = .ok (k', publicBytes.length)) ∧
    (textbookSized 512).encode .zero (.replicate 16 0) = .ok privateBytes ∧
      ∃ k', decode privateBytes .zero = .ok (k', privateBytes.length) := by
  have hpublic := (textbookSized 512).toPublic.encode_eq_ok_iff.mpr ⟨by decide +kernel, rfl⟩
  have hchecked : PublicKey.ofParts (textbookSized 512).header (textbookSized 512).n =
      .ok (textbookSized 512).toPublic := by decide +kernel
  have hreads := stored_readable_iff .zero (.replicate 16 0)
  have hreadPublic := (hreads.1 _ _ _ _ hchecked hpublic).mpr
    ⟨by decide +kernel, by decide +kernel⟩
  have haccepted := ofParts_of_isSound (k := textbookSized 512) (by decide +kernel)
  obtain ⟨bytes, h⟩ := exists_encode_zero (textbookSized 512) (by decide +kernel)
  have hread := (hreads.2 _ _ _ _ _ _ _ _ _ _ haccepted h).1.mpr
    ⟨by decide +kernel, by decide +kernel⟩
  exact ⟨_, bytes, hpublic, hreadPublic, h, hread⟩

open PrivateKey in
/-- A public key of 520 binary digits and a private key of 513 are checked and written, and what was
written is not read. -/
theorem textbookSized_unreadable :
    (PublicKey.ofParts (textbookSized 520).header (.ofUInt64 3233) =
        .ok (textbookSized 520).toPublic ∧
      ∃ bytes, (textbookSized 520).toPublic.encode = .ok bytes ∧
        ∀ k' used, PublicKey.decode bytes ≠ .ok (k', used)) ∧
    (ofParts (textbookSized 513).header (.ofUInt64 3233) (.ofUInt64 2753) (.ofUInt64 61)
        (.ofUInt64 53) (.ofUInt64 53) (.ofUInt64 49) (.ofUInt64 38) = .ok (textbookSized 513) ∧
      (textbookSized 513).header.bits.toNat % 256 ≠ 0 ∧
      ∃ bytes, (textbookSized 513).encode .zero (.replicate 16 0) = .ok bytes ∧
        ∀ k' used, decode bytes .zero ≠ .ok (k', used)) := by
  constructor
  · have hpublic := (textbookSized 520).toPublic.encode_eq_ok_iff.mpr ⟨by decide +kernel, rfl⟩
    refine ⟨by decide +kernel, _, hpublic, ?_⟩
    intro k' used hread
    exact absurd (PublicKey.readableSize_of_decode hpublic hread).bits_mod (by decide +kernel)
  · have haccepted := ofParts_of_isSound (k := textbookSized 513) (by decide +kernel)
    obtain ⟨bytes, h⟩ := exists_encode_zero (textbookSized 513) (by decide +kernel)
    refine ⟨haccepted, by decide +kernel, bytes, h, ?_⟩
    intro k' used hread
    exact absurd (PrivateKey.readableSize_of_decode h hread).bits_mod (by decide +kernel)

end Signet
