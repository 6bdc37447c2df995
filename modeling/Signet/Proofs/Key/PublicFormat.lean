import Mathlib
import Signet.Proofs.Key.InRange
import Signet.Proofs.Key.Storage

/-! The bytes that public keys are read from. A key is read exactly from the bytes that it is
written as, so that the reader accepts one form of each key. Main statements: `readsExactly`,
`exists_decode_iff` and `public_reader_exact`. -/
namespace Signet.PublicKey

/-- What a key without a sign, of a size that is read back, is written as. -/
def WrittenAs (k : PublicKey) (out : Bytes) : Prop :=
  (minKeyBits ≤ k.header.bits.toNat ∧ k.header.ReadableSize ∧ 0 ≤ k.n.toInt) ∧ k.encode = .ok out

/-- A public key is read from the bytes that it is written as, and from no others. -/
theorem readsExactly : ReadsExactly decode WrittenAs := by
  intro bytes k used
  constructor
  · intro hread
    obtain ⟨hheader, ⟨rfl, hlength⟩, hload⟩ := of_decode hread
    obtain ⟨-, ⟨hmin, hmod⟩, hbegins⟩ := KeyHeader.decode_eq_ok_iff.mp hheader
    have hsize : k.header.ReadableSize := ⟨hmod, Integer.width_le_of_load hload⟩
    have hfield := Bytes.length_slice hlength
    obtain ⟨hn, hlt, hmodulus⟩ :=
      Integer.bigEndian_of_load hload (by rw [hfield, hsize.bits_div])
    rw [hfield] at hlt hmodulus
    have hpacket : k.packet = bytes.take k.encodedLength := by
      rw [packet, hmodulus, encodedLength, Bytes.take_add, List.prefix_iff_eq_take.mp hbegins,
        KeyHeader.length_encode]
    refine ⟨_, ⟨⟨hmin, hsize, hn⟩, k.encode_eq_ok_iff.mpr ⟨hlt, rfl⟩⟩, ?_, k.length_packet.symm⟩
    rw [hpacket]
    exact List.take_prefix _ _
  · rintro ⟨out, ⟨⟨hmin, hsize, hn⟩, hencode⟩, ⟨rest, rfl⟩, rfl⟩
    rw [decode_encode_append hencode hmin hsize rest, k.unsigned_eq_self_iff.mpr hn]

/-- The bytes that hold a public key: a header of its kind with a size in units of 16 binary digits,
and a modulus of that size. -/
@[mk_iff]
structure Packed (bytes : Bytes) : Prop where
  states : Packet.States bytes 0x0005 16
  length_le : KeyHeader.statedSize bytes + bytes.numberAt 4 4 / 8 ≤ bytes.length

instance (bytes : Bytes) : Decidable (Packed bytes) := decidable_of_iff' _ (packed_iff bytes)

theorem packed_of_decode {bytes : Bytes} {k : PublicKey} {used : ℕ}
    (hread : decode bytes = .ok (k, used)) : Packed bytes := by
  obtain ⟨hheader, ⟨rfl, hlength⟩, hload⟩ := of_decode hread
  refine ⟨KeyHeader.states_of_decode hheader (Integer.width_le_of_load hload), ?_⟩
  rw [KeyHeader.statedSize_of_decode hheader, KeyHeader.numberAt_of_decode hheader]
  rw [encodedLength] at hlength
  omega

theorem Packed.exists_decode {bytes : Bytes} (h : Packed bytes) :
    ∃ k used, decode bytes = .ok (k, used) := by
  have hlong := h.length_le
  obtain ⟨header, hheader, hsize⟩ := KeyHeader.exists_decode_of_states
    (show PacketKind.publicKey ≠ .signature by decide) h.states (Nat.dvd_refl _) (by omega)
  rw [KeyHeader.statedSize_of_decode hheader, KeyHeader.numberAt_of_decode hheader] at hlong
  have hbody : header.encodedLength + 2 * header.unit ≤ bytes.length := by omega
  obtain ⟨n, hload⟩ := hsize.exists_load (Bytes.length_slice hbody)
  exact ⟨⟨header, n⟩, _, decode_of_fields hheader hbody hload⟩

theorem exists_decode_iff {bytes : Bytes} :
    (∃ k used, decode bytes = .ok (k, used)) ↔ Packed bytes :=
  ⟨fun ⟨_, _, hread⟩ => packed_of_decode hread, Packed.exists_decode⟩

/-- Whatever else is wrong with the bytes, they are malformed; a size beyond the bounds is named
only where there are enough bytes for it. -/
theorem decode_eq_error {bytes : Bytes} {e : Error} (hread : decode bytes = .error e) :
    e = .malformed ∨ e = .tooLarge ∧ Integer.maxBits < bytes.numberAt 4 4 := by
  rw [decode, bind_eq_error_iff] at hread
  rcases hread with hheader | ⟨⟨kind, header⟩, hheader, hread⟩
  · exact Or.inl (KeyHeader.decode_eq_error hheader)
  obtain ⟨-, ⟨-, hmod⟩, hfront, -⟩ := KeyHeader.decode_eq_ok hheader
  have hbits := hfront.numbers.2.2
  dsimp only at hread
  rw [bind_eq_error_iff, require_eq_error_iff] at hread
  rcases hread with ⟨-, rfl⟩ | ⟨_, -, hread⟩
  · exact Or.inl rfl
  rw [bind_eq_error_iff, require_eq_error_iff] at hread
  rcases hread with ⟨-, rfl⟩ | ⟨_, hlength, hread⟩
  · exact Or.inl rfl
  rw [require_eq_ok_iff, decide_eq_true_eq] at hlength
  rw [bind_eq_error_iff] at hread
  rcases hread with hload | ⟨n, -, hread⟩
  · have hfield := Bytes.length_slice hlength
    rw [KeyHeader.unit] at hfield
    rw [Integer.load] at hload
    split_ifs at hload with hwidth hmax hshort
    · omega
    · exact Or.inr ⟨(Except.error.inj hload).symm, by omega⟩
    · rw [KeyHeader.unit] at hshort
      omega
  · cases hread

/-- The reader of public keys accepts the bytes that hold one and no others. Every field that it
takes is in range, and what it does not accept is malformed, or has a size beyond the bounds. A key
that was read takes up its stored length and is written as the bytes that it was read from, which
give it again with anything behind them. -/
theorem public_reader_exact (bytes : Bytes) :
    ((∃ k used, decode bytes = .ok (k, used)) ↔ Packed bytes) ∧
      (decodeStrict bytes).run = some (decode bytes) ∧
      (∀ e, decode bytes = .error e →
        e = .malformed ∨ e = .tooLarge ∧ Integer.maxBits < bytes.numberAt 4 4) ∧
      ∀ k used, decode bytes = .ok (k, used) →
        used = k.encodedLength ∧ k.encode = .ok (bytes.take used) ∧
          decode (bytes.take used) = .ok (k, used) ∧
          ∀ rest, decode (bytes.take used ++ rest) = .ok (k, used) := by
  refine ⟨exists_decode_iff, ?_, fun e => decode_eq_error, ?_⟩
  · rw [decodeStrict_eq]
    rfl
  · intro k used hread
    obtain ⟨-, ⟨hused, -⟩, -⟩ := of_decode hread
    have hagain := readsExactly.read_take_append hread
    have hself := hagain []
    rw [List.append_nil] at hself
    exact ⟨hused, (readsExactly.writtenAs_take hread).2, hself, hagain⟩

/-- A legacy key that is valid from before the start of the count of seconds on, with a zero byte
inside its alias and a modulus of few digits, and one byte behind it. -/
def packedSample : Bytes :=
  [0, 5, 0, 0, 0, 0, 2, 0] ++ List.replicate 8 0xFF ++ [0, 0, 0, 0, 0, 0, 0, 9] ++
    List.replicate 8 1 ++ ([0x61, 0, 0x62] ++ Bytes.zeros 13) ++ (Bytes.zeros 62 ++ [0x0C, 0xA1]) ++
    [0x7F]

theorem public_reader_exact_sample : ∃ k used,
    decode packedSample = .ok (k, used) ∧ k.encode = .ok (packedSample.take used) ∧
      decode (packedSample.take used) = .ok (k, used) := by
  obtain ⟨haccepts, -, -, hread⟩ := public_reader_exact packedSample
  obtain ⟨k, used, hk⟩ := haccepts.mpr (by decide +kernel)
  obtain ⟨-, hencode, hagain, -⟩ := hread k used hk
  exact ⟨k, used, hk, hencode, hagain⟩

end Signet.PublicKey
