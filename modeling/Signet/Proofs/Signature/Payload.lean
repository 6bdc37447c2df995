import Mathlib
import Signet.Proofs.HashChain
import Signet.Proofs.Integer.Octets
import Signet.Proofs.Packet
import Signet.Signature.Payload

/-! The fields of a payload come back from its number whatever stands in front of them, and the
number takes one byte less than the modulus. Main statements: `filler_eq`, `ofMessage_ofBytes` and
`toMessage_spec`. -/
namespace Signet

namespace Digest

@[simp] theorem length_toBytes (d : Digest) : d.toBytes.length = 32 := Vector.length_toList ..

/-- Bytes of the right length are neither cut nor filled up. -/
theorem filled_eq_self {bytes : Bytes} (h : bytes.length = 32) :
    bytes.take 32 ++ Bytes.zeros (32 - bytes.length) = bytes := by
  rw [List.take_of_length_le h.le, h]
  exact List.append_nil _

theorem toBytes_ofBytes {bytes : Bytes} (h : bytes.length = 32) :
    (ofBytes bytes).toBytes = bytes := filled_eq_self h

theorem ofBytes_toBytes (d : Digest) : ofBytes d.toBytes = d := by
  have hbytes := filled_eq_self d.length_toBytes
  cases d with
  | mk bytes =>
    rw [ofBytes, Digest.mk.injEq]
    apply Vector.toList_inj.mp
    exact hbytes

end Digest

namespace Payload

theorem length_fields (p : Payload) : p.fields.length = fieldsSize := by
  rw [fields, List.length_append, List.length_append, Timestamp.length_secsBytes,
    Digest.length_toBytes]
  rfl

theorem slice_secs (p : Payload) : p.fields.slice 0 8 = p.time.secsBytes := by
  have hsplit : p.fields =
      [] ++ (p.time.secsBytes ++ ([p.assertion, p.sharing] ++ p.hash.toBytes)) := by
    rw [fields, List.nil_append, List.append_assoc]
  exact Bytes.slice_of_eq_append hsplit rfl p.time.length_secsBytes

theorem getD_assertion (p : Payload) : p.fields.getD 8 0 = p.assertion := by
  have hsplit : p.fields =
      p.time.secsBytes ++ (p.assertion :: ([p.sharing] ++ p.hash.toBytes)) := by
    rw [fields, List.append_assoc]
    rfl
  exact Bytes.getD_of_eq_append hsplit p.time.length_secsBytes

theorem getD_sharing (p : Payload) : p.fields.getD 9 0 = p.sharing := by
  have hsplit : p.fields =
      (p.time.secsBytes ++ [p.assertion]) ++ (p.sharing :: p.hash.toBytes) := by
    rw [fields, List.append_assoc, List.append_assoc]
    rfl
  exact Bytes.getD_of_eq_append hsplit (by simp)

theorem slice_hash (p : Payload) : p.fields.slice 10 32 = p.hash.toBytes := by
  have hsplit : p.fields =
      (p.time.secsBytes ++ [p.assertion, p.sharing]) ++ (p.hash.toBytes ++ []) := by
    rw [fields, List.append_nil]
  exact Bytes.slice_of_eq_append hsplit (by simp) p.hash.length_toBytes

/-- What comes back of a payload: the fraction of its time is lost. -/
def restored (p : Payload) : Payload := { p with time := p.time.trunc }

/-- What is found in the places of the fields. -/
def ofFields (fields : Bytes) : Payload where
  time := .ofSecsBytes (fields.slice 0 8)
  assertion := fields.getD 8 0
  sharing := fields.getD 9 0
  hash := .ofBytes (fields.slice 10 32)

theorem ofFields_fields (p : Payload) : ofFields p.fields = p.restored := by
  rw [ofFields, slice_secs, getD_assertion, getD_sharing, slice_hash,
    Timestamp.ofSecsBytes_secsBytes, Digest.ofBytes_toBytes]
  rfl

/-- The filler is the front of the stream behind the two digests that take in the time and then the
hash, neither of which is ever empty. -/
theorem filler_eq (p : Payload) (length : ℕ) :
    p.filler length =
      let timed := Md5.digest (Bytes.zeros 16 ++ p.time.saltBytes)
      HashChain.stream Md5.digest (Md5.digest (timed.toList ++ p.hash.toBytes)) length := by
  have htime : p.time.saltBytes ≠ [] := by
    apply List.ne_nil_of_length_pos
    simp [Timestamp.saltBytes]
  have hhash : p.hash.toBytes ≠ [] := by
    apply List.ne_nil_of_length_pos
    simp
  rw [filler]
  dsimp only
  rw [HashChain.fill_eq, HashChain.pool_absorb _ hhash, HashChain.pool_absorb _ htime]
  rfl

section Sizes

variable {bits : ℕ} (hmul : bits % 8 = 0) (hmin : 8 * (fieldsSize + 1) ≤ bits)
include hmul hmin

theorem messageSize_eq_ok : messageSize bits = .ok (bits / 8 - 1) := by
  rw [fieldsSize] at hmin
  have hwide : ¬ bits / 8 < fieldsSize + 1 := by
    rw [fieldsSize]
    omega
  rw [messageSize, if_neg]
  simp [hmul, hwide]

omit hmin in
/-- What a byte less than the modulus has room for. -/
theorem pow_room : 256 ^ (bits / 8 - 1) = 2 ^ (bits - 8) := by
  rw [Bytes.pow_eq]
  congr 1
  omega

theorem length_append_fields (p : Payload) {front : Bytes}
    (hfront : front.length = bits / 8 - 1 - fieldsSize) :
    (front ++ p.fields).length = bits / 8 - 1 := by
  rw [fieldsSize] at hmin hfront
  rw [List.length_append, hfront, length_fields, fieldsSize]
  omega

theorem ofBytes_lt (p : Payload) {front : Bytes}
    (hfront : front.length = bits / 8 - 1 - fieldsSize) :
    (Integer.ofBytes (front ++ p.fields)).toInt < 2 ^ (bits - 8) := by
  have hlt := Bytes.ofBigEndian_lt (front ++ p.fields)
  rw [length_append_fields hmul hmin p hfront, pow_room hmul] at hlt
  rw [Integer.toInt_ofBytes]
  exact_mod_cast hlt

/-- The fields come back from behind any filler of the right length. -/
theorem ofMessage_ofBytes (p : Payload) (front : Bytes)
    (hfront : front.length = bits / 8 - 1 - fieldsSize) :
    ofMessage (.ofBytes (front ++ p.fields)) bits = .ok p.restored := by
  have hlength := length_append_fields hmul hmin p hfront
  have hvalue : (Integer.ofBytes (front ++ p.fields)).toInt.natAbs =
      Bytes.ofBigEndian (front ++ p.fields) := by
    rw [Integer.toInt_ofBytes, Int.natAbs_natCast]
  have hwidth : bits - 8 = 8 * (bits / 8 - 1) := by omega
  -- the saved width is the number of bytes that were loaded, leading zeros included
  have hsave : (Integer.ofBytes (front ++ p.fields)).save (bits - 8) (bits - 8) =
      .ok (front ++ p.fields) := by
    have hlt := Bytes.ofBigEndian_lt (front ++ p.fields)
    rw [hlength, ← hvalue] at hlt
    rw [hwidth, Integer.save_eq_ok _ hlt, hvalue, ← hlength, Bytes.bigEndian_ofBigEndian]
  have hfields : (front ++ p.fields).drop (bits / 8 - 1 - fieldsSize) = p.fields := by
    rw [← hfront, List.drop_left]
  rw [ofMessage, messageSize_eq_ok hmul hmin, ok_bind, hsave, ok_bind]
  change Except.ok (ofFields ((front ++ p.fields).drop (bits / 8 - 1 - fieldsSize))) = _
  rw [hfields, ofFields_fields]

/-- The number of a payload stays a byte below the modulus, and its fields come back. -/
theorem toMessage_spec (p : Payload) (hmax : bits ≤ Integer.maxBits) :
    ∃ m, p.toMessage bits = .ok m ∧ 0 ≤ m.toInt ∧ m.toInt < 2 ^ (bits - 8) ∧
      ofMessage m bits = .ok p.restored := by
  have hfiller : (p.filler (bits / 8 - 1 - fieldsSize)).length = bits / 8 - 1 - fieldsSize :=
    HashChain.length_fill _ _
  have hlength : (p.filler (bits / 8 - 1 - fieldsSize) ++ p.fields).length = (bits - 8) / 8 := by
    rw [length_append_fields hmul hmin p hfiller]
    omega
  refine ⟨.ofBytes (p.filler (bits / 8 - 1 - fieldsSize) ++ p.fields), ?_, ?_,
    ofBytes_lt hmul hmin p hfiller, ofMessage_ofBytes hmul hmin p _ hfiller⟩
  · rw [toMessage, messageSize_eq_ok hmul hmin, ok_bind,
      Integer.load_eq_ok (by omega) (by omega) hlength.ge, ← hlength, List.take_length]
  · rw [Integer.toInt_ofBytes]
    exact Int.natCast_nonneg _

end Sizes

end Payload

end Signet
