import Mathlib
import Signet.Proofs.Integer.Octets
import Signet.Proofs.Packet
import Signet.Signature.Basic

/-! The stored form of a signature. Each field is read back from where it was written, and nothing
behind the value is looked at. Main statements: `decode_eq_ok_iff_reads` and
`decode_encode_append`. -/
namespace Signet

namespace Assertion

theorem ofCode_code (a : Assertion) : ofCode a.code = .ok a := by
  cases a <;> rfl

theorem code_of_ofCode {code : UInt8} {a : Assertion} (h : ofCode code = .ok a) :
    a.code = code := by
  rw [ofCode] at h
  split at h
  · next found hfind =>
    have hcode := List.find?_some hfind
    obtain rfl := Except.ok.inj h
    exact beq_iff_eq.mp hcode
  · cases h

end Assertion

namespace Sharing

theorem ofCode_code (s : Sharing) : ofCode s.code = .ok s := by
  cases s <;> rfl

theorem code_of_ofCode {code : UInt8} {s : Sharing} (h : ofCode code = .ok s) :
    s.code = code := by
  rw [ofCode] at h
  split at h
  · next hno =>
    obtain rfl := Except.ok.inj h
    exact hno.symm
  · split at h
    · next hyes =>
      obtain rfl := Except.ok.inj h
      exact hyes.symm
    · cases h

end Sharing

namespace Signature

/-- The stored form, with the value in its width. -/
def packet (s : Signature) : Bytes :=
  Packet.front .signature s.version s.bits s.create s.id s.made ++
    (s.assertion.code :: s.sharing.code ::
      Bytes.bigEndian (s.bits.toNat / 8) s.value.toInt.natAbs)

@[simp] theorem length_packet (s : Signature) : s.packet.length = s.encodedLength := by
  rw [packet, List.length_append, Packet.length_front, List.length_cons, List.length_cons,
    Bytes.length_bigEndian, encodedLength, headerSize]
  omega

theorem encode_eq_ok (s : Signature) (hfits : s.value.toInt.natAbs < 256 ^ (s.bits.toNat / 8)) :
    s.encode = .ok s.packet := by
  rw [encode, Integer.toFixedBytes_eq_ok s.value hfits, ok_bind, packet, Packet.front]
  simp only [List.append_assoc, List.cons_append, List.nil_append]
  rfl

/-- A signature that can be written: its size is one that is read back, and the value fits it. -/
structure Storable (s : Signature) : Prop where
  minKeyBits_le : minKeyBits ≤ s.bits.toNat
  bits_mod : s.bits.toNat % 8 = 0
  bits_le : s.bits.toNat ≤ Integer.maxBits
  value_nonneg : 0 ≤ s.value.toInt
  value_lt : s.value.toInt < 2 ^ s.bits.toNat

/-- A whole number of bytes has as many values as its binary digits. -/
theorem pow_bytes {bits : ℕ} (hmod : bits % 8 = 0) : 256 ^ (bits / 8) = 2 ^ bits := by
  rw [Bytes.pow_eq]
  congr 1
  omega

theorem Storable.natAbs_value_lt {s : Signature} (h : s.Storable) :
    s.value.toInt.natAbs < 256 ^ (s.bits.toNat / 8) := by
  have hlt := h.value_lt
  rw [← Int.natAbs_of_nonneg h.value_nonneg] at hlt
  rw [pow_bytes h.bits_mod]
  exact_mod_cast hlt

/-- What a reader finds at the places of the fields. -/
structure Reads (bytes : Bytes) (s : Signature) : Prop where
  front : Packet.ReadsFront bytes .signature s.version s.bits s.create s.id s.made
  minKeyBits_le : minKeyBits ≤ s.bits.toNat
  bits_mod : s.bits.toNat % 8 = 0
  assertion_eq : Assertion.ofCode (bytes.getD 32 0) = .ok s.assertion
  sharing_eq : Sharing.ofCode (bytes.getD 33 0) = .ok s.sharing
  length_le : s.encodedLength ≤ bytes.length
  value_eq : Integer.load (bytes.slice headerSize (s.bits.toNat / 8)) s.bits.toNat = .ok s.value

/-- The reader gives a signature exactly where it finds one. -/
theorem decode_eq_ok_iff_reads {bytes : Bytes} {s : Signature} {used : ℕ} :
    decode bytes = .ok (s, used) ↔ Reads bytes s ∧ used = s.encodedLength := by
  constructor
  · intro hread
    rw [decode, bind_eq_ok_iff] at hread
    obtain ⟨-, -, hread⟩ := hread
    rw [bind_eq_ok_iff] at hread
    obtain ⟨kind, hkind, hread⟩ := hread
    rw [bind_eq_ok_iff] at hread
    obtain ⟨_, hsignature, hread⟩ := hread
    rw [require_eq_ok_iff, beq_iff_eq] at hsignature
    obtain rfl := hsignature
    dsimp only at hread
    split at hread
    · cases hread
    · next version hversion =>
      simp only [bind_eq_ok_iff, require_eq_ok_iff, Bool.and_eq_true, beq_iff_eq,
        decide_eq_true_eq] at hread
      obtain ⟨_, hsize, assertion, hassertion, sharing, hsharing, _, htotal, value, hvalue,
        hread⟩ := hread
      obtain ⟨rfl, rfl⟩ := Prod.mk.inj (Except.ok.inj hread)
      exact ⟨⟨⟨hkind, hversion, rfl, rfl, rfl, rfl⟩, hsize.1, hsize.2, hassertion, hsharing,
        htotal, hvalue⟩, rfl⟩
  · rintro ⟨h, rfl⟩
    have hlength := h.length_le
    rw [encodedLength] at hlength
    have hheader : headerSize ≤ bytes.length := by omega
    rw [decode, h.front.kind_eq, h.front.version_eq, h.front.bits_eq, h.front.first_eq,
      h.front.id_eq, h.front.second_eq, h.assertion_eq, h.sharing_eq]
    dsimp only
    rw [h.value_eq, decide_eq_true hheader, decide_eq_true hlength,
      decide_eq_true h.minKeyBits_le, h.bits_mod]
    rfl

/-- Each field of a signature that was written is found again. -/
theorem reads_packet_append (s : Signature) (h : s.Storable) (rest : Bytes) :
    Reads (s.packet ++ rest) s := by
  have hload := Integer.load_bigEndian h.bits_mod h.bits_le h.value_nonneg h.natAbs_value_lt
  have hfront := Packet.length_front .signature s.version s.bits s.create s.id s.made
  have hpacket : s.packet ++ rest =
      Packet.front .signature s.version s.bits s.create s.id s.made ++
        (s.assertion.code :: s.sharing.code ::
          (Bytes.bigEndian (s.bits.toNat / 8) s.value.toInt.natAbs ++ rest)) := by
    rw [packet, List.append_assoc, List.cons_append, List.cons_append]
  constructor
  case front =>
    rw [hpacket]
    exact Packet.readsFront_front ..
  case minKeyBits_le => exact h.minKeyBits_le
  case bits_mod => exact h.bits_mod
  case assertion_eq => rw [Bytes.getD_of_eq_append hpacket hfront, Assertion.ofCode_code]
  case sharing_eq =>
    rw [List.append_cons] at hpacket
    rw [Bytes.getD_of_eq_append hpacket
      (by rw [List.length_append, hfront, List.length_singleton]), Sharing.ofCode_code]
  case length_le =>
    rw [List.length_append, length_packet]
    omega
  case value_eq =>
    have hvalue_front : (s.packet ++ rest).drop headerSize =
        Bytes.bigEndian (s.bits.toNat / 8) s.value.toInt.natAbs ++ rest := by
      rw [hpacket, List.append_cons, List.append_cons]
      refine List.drop_left' ?_
      rw [List.length_append, List.length_append, hfront, List.length_singleton,
        List.length_singleton, headerSize]
    obtain ⟨value_at, -⟩ := Bytes.read_next hvalue_front (Bytes.length_bigEndian ..)
    rw [value_at, hload]

/-- Reading what was written gives the same signature, whatever stands behind it. -/
theorem decode_encode_append (s : Signature) (h : s.Storable) :
    ∃ bytes, s.encode = .ok bytes ∧ bytes.length = s.encodedLength ∧
      ∀ rest, decode (bytes ++ rest) = .ok (s, bytes.length) := by
  refine ⟨s.packet, s.encode_eq_ok h.natAbs_value_lt, s.length_packet, ?_⟩
  intro rest
  rw [s.length_packet]
  exact decode_eq_ok_iff_reads.mpr ⟨s.reads_packet_append h rest, rfl⟩

end Signature
end Signet
