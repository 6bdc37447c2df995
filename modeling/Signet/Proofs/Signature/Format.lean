import Mathlib
import Signet.Proofs.Key.Operation
import Signet.Proofs.Signature.RoundTrip

/-! The bytes that signatures are read from. A signature is read exactly from the bytes that it is
written as, and every signature that is made with a checked key can be written. Main statements:
`readsExactly`, `exists_decode_iff`, `storable_of_make` and `signature_reader_exact`. -/
namespace Signet

theorem Assertion.exists_ofCode_iff {code : UInt8} :
    (∃ a, ofCode code = .ok a) ↔
      code ∈ ([0x00, 0x05, 0x06, 0x09, 0x0A, 0x0F, 0xFF] : List UInt8) := by
  change _ ↔ code ∈ all.map Assertion.code
  rw [List.mem_map]
  constructor
  · rintro ⟨a, h⟩
    exact ⟨a, by cases a <;> decide, code_of_ofCode h⟩
  · rintro ⟨a, -, rfl⟩
    exact ⟨a, ofCode_code a⟩

theorem Sharing.exists_ofCode_iff {code : UInt8} :
    (∃ s, ofCode code = .ok s) ↔ code ∈ ([0x33, 0xCC] : List UInt8) := by
  change _ ↔ code ∈ [Sharing.no, Sharing.yes].map Sharing.code
  rw [List.mem_map]
  constructor
  · rintro ⟨s, h⟩
    exact ⟨s, by cases s <;> decide, code_of_ofCode h⟩
  · rintro ⟨s, -, rfl⟩
    exact ⟨s, ofCode_code s⟩

namespace Signature

variable {bytes : Bytes} {s : Signature} {used : ℕ}

/-- What was read fits where it was read from. -/
theorem Reads.storable (h : Reads bytes s) : s.Storable := by
  have hfield : (bytes.slice headerSize (s.bits.toNat / 8)).length = s.bits.toNat / 8 :=
    Bytes.length_slice h.length_le
  obtain ⟨hnonneg, hlt, -⟩ := Integer.bigEndian_of_load h.value_eq hfield
  refine ⟨h.minKeyBits_le, h.bits_mod, Integer.width_le_of_load h.value_eq, hnonneg, ?_⟩
  rw [hfield, pow_bytes h.bits_mod] at hlt
  rw [← Int.natAbs_of_nonneg hnonneg]
  exact_mod_cast hlt

/-- Written anew, a signature gives the bytes where it was found. -/
theorem Reads.packet_eq (h : Reads bytes s) : s.packet = bytes.take s.encodedLength := by
  have hlength := h.length_le
  rw [encodedLength, headerSize] at hlength
  have hfield : (bytes.slice headerSize (s.bits.toNat / 8)).length = s.bits.toNat / 8 :=
    Bytes.length_slice h.length_le
  obtain ⟨-, -, hvalue⟩ := Integer.bigEndian_of_load h.value_eq hfield
  rw [hfield] at hvalue
  -- the front, the two codes and the value, as they follow one another
  rw [packet, encodedLength, bytes.take_add, hvalue, headerSize, bytes.take_add 32 2,
    h.front.take_eq (by omega), Bytes.slice_two (by omega),
    Assertion.code_of_ofCode h.assertion_eq, Sharing.code_of_ofCode h.sharing_eq, List.append_assoc]
  rfl

/-- What a signature that can be written is written as. -/
def WrittenAs (s : Signature) (out : Bytes) : Prop := s.Storable ∧ s.encode = .ok out

/-- A signature is read from the bytes that it is written as, and from no others. -/
theorem readsExactly : ReadsExactly decode WrittenAs := by
  intro bytes s used
  constructor
  · intro hread
    obtain ⟨h, rfl⟩ := decode_eq_ok_iff_reads.mp hread
    refine ⟨s.packet, ⟨h.storable, s.encode_eq_ok h.storable.natAbs_value_lt⟩, ?_,
      s.length_packet.symm⟩
    rw [h.packet_eq]
    exact List.take_prefix _ _
  · rintro ⟨out, ⟨hstorable, hencode⟩, ⟨rest, rfl⟩, rfl⟩
    obtain ⟨out', hencode', -, hread⟩ := s.decode_encode_append hstorable
    obtain rfl := Except.ok.inj (hencode'.symm.trans hencode)
    exact hread rest

/-- The bytes that hold a signature: a front of its kind with a size in whole bytes, the codes of an
assertion and of a sharing, and a value of that size. -/
@[mk_iff]
structure Packed (bytes : Bytes) : Prop where
  headerSize_le : 34 ≤ bytes.length
  states : Packet.States bytes 0x0050 8
  assertion_mem :
    bytes.getD 32 0 ∈ ([0x00, 0x05, 0x06, 0x09, 0x0A, 0x0F, 0xFF] : List UInt8)
  sharing_mem : bytes.getD 33 0 ∈ ([0x33, 0xCC] : List UInt8)
  length_le : 34 + bytes.numberAt 4 4 / 8 ≤ bytes.length

instance (bytes : Bytes) : Decidable (Packed bytes) := decidable_of_iff' _ (packed_iff bytes)

theorem Reads.packed (h : Reads bytes s) : Packed bytes := by
  obtain ⟨hcode, hversion, hbits⟩ := h.front.numbers
  have hlength := h.length_le
  rw [encodedLength, headerSize] at hlength
  constructor
  case headerSize_le => omega
  case states =>
    refine ⟨hcode, Version.exists_number_iff.mp ⟨_, hversion⟩, ?_, ?_, ?_⟩
    · exact hbits ▸ h.minKeyBits_le
    · exact hbits ▸ h.storable.bits_le
    · exact hbits ▸ h.bits_mod
  case assertion_mem => exact Assertion.exists_ofCode_iff.mp ⟨_, h.assertion_eq⟩
  case sharing_mem => exact Sharing.exists_ofCode_iff.mp ⟨_, h.sharing_eq⟩
  case length_le => rwa [hbits]

theorem Packed.exists_reads (h : Packed bytes) : ∃ s, Reads bytes s := by
  obtain ⟨hcode, hversion, hmin, hmax, hmod⟩ := h.states
  have hlength := h.length_le
  obtain ⟨version, bits, create, id, made, hfront⟩ :=
    @Packet.exists_readsFront bytes .signature hcode hversion
  obtain ⟨assertion, hassertion⟩ := Assertion.exists_ofCode_iff.mpr h.assertion_mem
  obtain ⟨sharing, hsharing⟩ := Sharing.exists_ofCode_iff.mpr h.sharing_mem
  obtain ⟨-, -, hbits⟩ := hfront.numbers
  rw [hbits] at hmin hmax hmod hlength
  obtain ⟨value, hvalue⟩ : ∃ value,
      Integer.load (bytes.slice headerSize (bits.toNat / 8)) bits.toNat = .ok value :=
    ⟨_, Integer.load_eq_ok hmod hmax (Bytes.length_slice hlength).ge⟩
  exact ⟨⟨version, bits, create, id, made, assertion, sharing, value⟩, hfront, hmin, hmod,
    hassertion, hsharing, hlength, hvalue⟩

theorem exists_decode_iff : (∃ s used, decode bytes = .ok (s, used)) ↔ Packed bytes := by
  constructor
  · rintro ⟨s, used, hread⟩
    exact (decode_eq_ok_iff_reads.mp hread).1.packed
  · intro h
    obtain ⟨s, hreads⟩ := h.exists_reads
    exact ⟨s, s.encodedLength, decode_eq_ok_iff_reads.mpr ⟨hreads, rfl⟩⟩

section Make

variable {hash : Digest} {time now : Timestamp} {a : Assertion} {sharing : Sharing} {key : Key}

/-- What a signature owes to the key that made it. -/
theorem of_make (h : make hash time a sharing key now = .ok s) :
    minKeyBits ≤ key.header.bits.toNat ∧ key.header.bits.toNat % 8 = 0 ∧
      s.bits = key.header.bits ∧ ∃ m, key.apply m = .ok s.value := by
  simp only [make, bind_eq_ok_iff, require_eq_ok_iff, decide_eq_true_eq] at h
  obtain ⟨_, hmin, _, -, _, -, m, hm, c, hc, h⟩ := h
  obtain rfl := Except.ok.inj h
  refine ⟨hmin, ?_, rfl, m, hc⟩
  -- a payload is only laid out for a modulus of whole bytes
  rw [Payload.toMessage, bind_eq_ok_iff] at hm
  obtain ⟨size, hsize, -⟩ := hm
  rw [Payload.messageSize] at hsize
  split at hsize
  · cases hsize
  · next hwhole =>
    rw [Bool.or_eq_true, decide_eq_true_eq, not_or, not_not] at hwhole
    exact hwhole.1

theorem storable_of_make (haccepted : key.Accepted)
    (hmax : key.header.bits.toNat ≤ Integer.maxBits)
    (h : make hash time a sharing key now = .ok s) : s.Storable := by
  obtain ⟨hmin, hmod, hbits, m, happly⟩ := of_make h
  obtain ⟨hnonneg, hlt⟩ := haccepted.apply_lt happly
  rw [← hbits] at hmin hmod hmax hlt
  exact ⟨hmin, hmod, hmax, hnonneg, hlt⟩

end Make

/-- The reader of signatures accepts the bytes that hold one and no others. A signature that was
read takes up its stored length and is written as the bytes that it was read from, which give it
again with anything behind them. Every signature made with a checked key of a size that numbers may
have is written, and is read from what was written. -/
theorem signature_reader_exact :
    (∀ bytes : Bytes,
      ((∃ s used, decode bytes = .ok (s, used)) ↔ Packed bytes) ∧
        ∀ s used, decode bytes = .ok (s, used) →
          used = s.encodedLength ∧ s.encode = .ok (bytes.take used) ∧
            ∀ rest, decode (bytes.take used ++ rest) = .ok (s, used)) ∧
      ∀ (hash : Digest) (time now : Timestamp) (a : Assertion) (sharing : Sharing) (key : Key)
        (s : Signature), key.Accepted → key.header.bits.toNat ≤ Integer.maxBits →
          make hash time a sharing key now = .ok s →
            ∃ bytes, s.encode = .ok bytes ∧ decode bytes = .ok (s, bytes.length) := by
  constructor
  · intro bytes
    refine ⟨exists_decode_iff, ?_⟩
    intro s used hread
    obtain ⟨-, hused⟩ := decode_eq_ok_iff_reads.mp hread
    exact ⟨hused, (readsExactly.writtenAs_take hread).2, readsExactly.read_take_append hread⟩
  · intro hash time now a sharing key s haccepted hmax hmake
    obtain ⟨bytes, hencode, -, hread⟩ :=
      s.decode_encode_append (storable_of_make haccepted hmax hmake)
    have hself := hread []
    rw [List.append_nil] at hself
    exact ⟨bytes, hencode, hself⟩

/-- A key for messages only: its modulus is odd, and nothing is known of its factors. -/
def messageKey : PublicKey :=
  ⟨PrivateKey.textbookHeader .legacy, .ofBytes (0x80 :: Bytes.zeros 62 ++ [1])⟩

theorem signature_reader_exact_sample : ∃ s bytes,
    make .zero ⟨0, 7⟩ .message .no (.pub messageKey) ⟨1, 0⟩ = .ok s ∧ s.encode = .ok bytes ∧
      decode bytes = .ok (s, bytes.length) ∧ Packed bytes := by
  obtain ⟨hreads, hmade⟩ := signature_reader_exact
  obtain ⟨m, hm, hnonneg, hm_lt, -⟩ := Payload.toMessage_spec (show 512 % 8 = 0 by decide)
    (by decide) ⟨⟨0, 7⟩, Assertion.message.code, Sharing.no.code, .zero⟩ (by decide +kernel)
  have hn : messageKey.n.toInt = 2 ^ 511 + 1 := by
    rw [messageKey, Integer.toInt_ofBytes]
    decide +kernel
  have hlt : m.toInt < messageKey.n.toInt := by
    rw [hn]
    exact hm_lt.trans_le (by decide +kernel)
  obtain ⟨c, hc, -⟩ := messageKey.apply_eq_ok (by rw [hn]; decide +kernel) hnonneg hlt
  have hmake : make .zero ⟨0, 7⟩ .message .no (.pub messageKey) ⟨1, 0⟩ = .ok _ :=
    make_eq_ok (by decide +kernel) rfl (by decide +kernel) (by decide +kernel) hm hc
  have haccepted : (Key.pub messageKey).Accepted :=
    show PublicKey.ofParts messageKey.header messageKey.n = .ok messageKey by decide +kernel
  obtain ⟨bytes, hencode, hread⟩ :=
    hmade _ _ _ _ _ _ _ haccepted (by decide +kernel) hmake
  exact ⟨_, bytes, hmake, hencode, hread, (hreads bytes).1.mp ⟨_, _, hread⟩⟩

end Signature
end Signet
