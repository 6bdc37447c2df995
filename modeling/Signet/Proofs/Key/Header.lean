import Mathlib
import Signet.Integer.Basic
import Signet.Key.Header
import Signet.Proofs.Packet

/-! The stored form of what the halves of a key pair have in common. Reading asks for a size that is
a whole number of units; writing does not. A header is read exactly from the bytes that it is
written as. Main statements: `decode_eq_ok_iff`, `exists_decode_iff` and `bits_of_decode`. -/
namespace Signet.KeyHeader

/-- The sizes of a modulus for which stored keys are taken in. -/
@[mk_iff]
structure ReadableSize (h : KeyHeader) : Prop where
  bits_mod : h.bits.toNat % 16 = 0
  bits_le : h.bits.toNat ≤ Integer.maxBits

theorem encode_eq (kind : PacketKind) (h : KeyHeader) :
    h.encode kind = Packet.front kind h.version h.bits h.create h.id h.expire ++ h.aliasField := by
  rw [encode, Packet.front]
  simp only [List.append_assoc]
  rfl

@[simp] theorem length_encode (kind : PacketKind) (h : KeyHeader) :
    (h.encode kind).length = h.encodedLength := by
  rw [encode_eq, List.length_append, Packet.length_front, h.length_aliasField, encodedLength,
    Version.headerSize]

theorem drop_encode (kind : PacketKind) (h : KeyHeader) (rest : Bytes) :
    (h.encode kind ++ rest).drop h.encodedLength = rest := List.drop_left' (length_encode ..)

theorem readsFront_encode (kind : PacketKind) (h : KeyHeader) (rest : Bytes) :
    Packet.ReadsFront (h.encode kind ++ rest) kind h.version h.bits h.create h.id h.expire := by
  rw [encode_eq, List.append_assoc]
  exact Packet.readsFront_front ..

theorem slice_alias (kind : PacketKind) (h : KeyHeader) (rest : Bytes) :
    (h.encode kind ++ rest).slice 32 h.version.aliasSize = h.aliasField := by
  have hfront : (h.encode kind ++ rest).drop 32 = h.aliasField ++ rest := by
    rw [encode_eq, List.append_assoc]
    exact List.drop_left' (Packet.length_front ..)
  exact (Bytes.read_next hfront h.length_aliasField).1

/-- Reading what was written gives the same header, whatever stands behind it. -/
theorem decode_encode_append {kind : PacketKind} (hkind : kind ≠ .signature) (h : KeyHeader)
    (hmin : minKeyBits ≤ h.bits.toNat) (hmod : h.bits.toNat % 16 = 0) (rest : Bytes) :
    decode (h.encode kind ++ rest) = .ok (kind, h) := by
  have hread := h.readsFront_encode kind rest
  have halias := h.slice_alias kind rest
  have hlength : 8 ≤ (h.encode kind ++ rest).length := by
    rw [List.length_append, length_encode, encodedLength, Version.headerSize]
    omega
  have hfield := h.length_aliasField
  rw [decode, hread.kind_eq, hread.version_eq, decide_eq_true hlength]
  simp only [require_true, ok_bind, hread.bits_eq, hread.first_eq, hread.id_eq, hread.second_eq,
    halias, bne_iff_ne.mpr hkind, decide_eq_true hmin, hmod, beq_self_eq_true, Bool.and_self]
  rw [dif_pos hfield]
  rfl

/-- What a header that was read was found to hold. -/
theorem decode_eq_ok {bytes : Bytes} {kind : PacketKind} {h : KeyHeader}
    (hread : decode bytes = .ok (kind, h)) :
    kind ≠ .signature ∧ (minKeyBits ≤ h.bits.toNat ∧ h.bits.toNat % 16 = 0) ∧
      Packet.ReadsFront bytes kind h.version h.bits h.create h.id h.expire ∧
      bytes.slice 32 h.version.aliasSize = h.aliasField := by
  rw [decode, bind_eq_ok_iff] at hread
  obtain ⟨-, -, hread⟩ := hread
  rw [bind_eq_ok_iff] at hread
  obtain ⟨found, hkind, hread⟩ := hread
  dsimp only at hread
  split at hread
  · cases hread
  · next version hversion =>
    rw [bind_eq_ok_iff] at hread
    obtain ⟨_, hsigned, hread⟩ := hread
    rw [bind_eq_ok_iff] at hread
    obtain ⟨_, hsize, hread⟩ := hread
    rw [require_eq_ok_iff, bne_iff_ne] at hsigned
    rw [require_eq_ok_iff, Bool.and_eq_true, beq_iff_eq, decide_eq_true_eq] at hsize
    split at hread
    · obtain ⟨rfl, rfl⟩ := Prod.mk.inj (Except.ok.inj hread)
      exact ⟨hsigned, hsize, ⟨hkind, hversion, rfl, rfl, rfl, rfl⟩, rfl⟩
    · cases hread

theorem decode_eq_error {bytes : Bytes} {e : Error} (hread : decode bytes = .error e) :
    e = .malformed := by
  rw [decode, bind_eq_error_iff, require_eq_error_iff] at hread
  rcases hread with ⟨-, rfl⟩ | ⟨-, -, hread⟩
  · rfl
  rw [bind_eq_error_iff] at hread
  rcases hread with hkind | ⟨found, -, hread⟩
  · exact PacketKind.ofCode_eq_error hkind
  dsimp only at hread
  split at hread
  · exact (Except.error.inj hread).symm
  · rw [bind_eq_error_iff, require_eq_error_iff] at hread
    rcases hread with ⟨-, rfl⟩ | ⟨-, -, hread⟩
    · rfl
    rw [bind_eq_error_iff, require_eq_error_iff] at hread
    rcases hread with ⟨-, rfl⟩ | ⟨-, -, hread⟩
    · rfl
    split at hread
    · cases hread
    · exact (Except.error.inj hread).symm

/-- The size comes back as it was written, and only if it is a whole number of units. -/
theorem bits_of_decode {kind kind' : PacketKind} {h h' : KeyHeader} {rest : Bytes}
    (hread : decode (h.encode kind ++ rest) = .ok (kind', h')) :
    h'.bits = h.bits ∧ h.bits.toNat % 16 = 0 := by
  obtain ⟨-, ⟨-, hmod⟩, hfront, -⟩ := decode_eq_ok hread
  have hbits := hfront.bits_eq
  rw [(h.readsFront_encode kind rest).bits_eq] at hbits
  exact ⟨hbits.symm, hbits ▸ hmod⟩

/-- What was found at the front and in the alias field is written as it was found. -/
theorem encode_eq_take {bytes : Bytes} {kind : PacketKind} {h : KeyHeader}
    (hfront : Packet.ReadsFront bytes kind h.version h.bits h.create h.id h.expire)
    (halias : bytes.slice 32 h.version.aliasSize = h.aliasField)
    (hlength : h.encodedLength ≤ bytes.length) : h.encode kind = bytes.take h.encodedLength := by
  have hlong : 32 ≤ bytes.length := by
    rw [encodedLength, Version.headerSize] at hlength
    omega
  rw [encode_eq, ← hfront.take_eq hlong, ← halias, encodedLength, Version.headerSize,
    Bytes.take_add]

/-- A header is read from the bytes that it is written as, and from no others. -/
theorem decode_eq_ok_iff {bytes : Bytes} {kind : PacketKind} {h : KeyHeader} :
    decode bytes = .ok (kind, h) ↔
      kind ≠ .signature ∧ (minKeyBits ≤ h.bits.toNat ∧ h.bits.toNat % 16 = 0) ∧
        h.encode kind <+: bytes := by
  constructor
  · intro hread
    obtain ⟨hkind, hsize, hfront, halias⟩ := decode_eq_ok hread
    have hlength : h.encodedLength ≤ bytes.length := by
      have hfield := h.length_aliasField
      -- the alias field is as long as it is only if the bytes reach to its end
      rw [← halias, Bytes.slice, List.length_take, List.length_drop] at hfield
      have hpositive : 0 < h.version.aliasSize := by cases h.version <;> decide
      rw [encodedLength, Version.headerSize]
      omega
    rw [encode_eq_take hfront halias hlength]
    exact ⟨hkind, hsize, List.take_prefix _ _⟩
  · rintro ⟨hkind, hsize, rest, rfl⟩
    exact decode_encode_append hkind h hsize.1 hsize.2 rest

/-- The length of the header that the stated version calls for. -/
def statedSize (bytes : Bytes) : ℕ := if bytes.numberAt 2 2 = 0 then 48 else 64

theorem statedSize_eq {bytes : Bytes} {v : Version} (h : bytes.numberAt 2 2 = v.number) :
    statedSize bytes = v.headerSize := by
  rw [statedSize, h]
  cases v <;> rfl

theorem statedSize_of_decode {bytes : Bytes} {kind : PacketKind} {h : KeyHeader}
    (hread : decode bytes = .ok (kind, h)) : statedSize bytes = h.encodedLength := by
  obtain ⟨-, -, hfront, -⟩ := decode_eq_ok hread
  exact statedSize_eq hfront.numbers.2.1

/-- A header is read wherever the first eight bytes state a kind of key, a version and a size that
is a whole number of units, and there are as many bytes as the version calls for. -/
theorem exists_decode_iff (bytes : Bytes) (kind : PacketKind) :
    (∃ h, decode bytes = .ok (kind, h)) ↔
      kind ≠ .signature ∧ (bytes.numberAt 0 2 = kind.code ∧ bytes.numberAt 2 2 ≤ 1) ∧
        (512 ≤ bytes.numberAt 4 4 ∧ bytes.numberAt 4 4 % 16 = 0) ∧
        statedSize bytes ≤ bytes.length := by
  constructor
  · rintro ⟨h, hread⟩
    obtain ⟨hkind, hsize, hbegins⟩ := decode_eq_ok_iff.mp hread
    obtain ⟨-, -, hfront, -⟩ := decode_eq_ok hread
    obtain ⟨hcode, hversion, hbits⟩ := hfront.numbers
    have hlength := hbegins.length_le
    rw [length_encode, ← statedSize_of_decode hread] at hlength
    rw [hbits]
    exact ⟨hkind, ⟨hcode, Version.exists_number_iff.mp ⟨_, hversion⟩⟩, hsize, hlength⟩
  · rintro ⟨hkind, ⟨hcode, hnumber⟩, hsize, hlength⟩
    obtain ⟨version, bits, create, id, expire, hfront⟩ := Packet.exists_readsFront hcode hnumber
    obtain ⟨-, hversion, hbits⟩ := hfront.numbers
    rw [statedSize_eq hversion] at hlength
    rw [hbits] at hsize
    let h : KeyHeader :=
      { version, bits, id, create, expire
        aliasField := bytes.slice 32 version.aliasSize
        length_aliasField := Bytes.length_slice hlength }
    refine ⟨h, decode_eq_ok_iff.mpr ⟨hkind, hsize, ?_⟩⟩
    rw [encode_eq_take (h := h) hfront rfl hlength]
    exact List.take_prefix _ _

/-- The size that is stated in front of a header is that of all its units. -/
theorem numberAt_of_decode {bytes : Bytes} {kind : PacketKind} {h : KeyHeader}
    (hread : decode bytes = .ok (kind, h)) : bytes.numberAt 4 4 = 16 * h.unit := by
  obtain ⟨-, ⟨-, hmod⟩, hfront, -⟩ := decode_eq_ok hread
  rw [hfront.numbers.2.2, unit]
  omega

/-- A header with a size that numbers may have was read from bytes that state a key. -/
theorem states_of_decode {bytes : Bytes} {kind : PacketKind} {h : KeyHeader}
    (hread : decode bytes = .ok (kind, h)) (hmax : h.bits.toNat ≤ Integer.maxBits) :
    Packet.States bytes kind.code 16 := by
  obtain ⟨-, ⟨hcode, hversion⟩, ⟨hmin, hmod⟩, -⟩ := (exists_decode_iff _ _).mp ⟨h, hread⟩
  obtain ⟨-, -, hfront, -⟩ := decode_eq_ok hread
  exact ⟨hcode, hversion, hmin, hfront.numbers.2.2 ▸ hmax, hmod⟩

/-- Bytes that state a key, and are enough for its header, have a header of a readable size. -/
theorem exists_decode_of_states {bytes : Bytes} {kind : PacketKind} {step : ℕ}
    (hkind : kind ≠ .signature) (hstates : Packet.States bytes kind.code step) (hstep : 16 ∣ step)
    (hlength : statedSize bytes ≤ bytes.length) :
    ∃ h, decode bytes = .ok (kind, h) ∧ h.ReadableSize := by
  have hmod : bytes.numberAt 4 4 % 16 = 0 :=
    Nat.mod_eq_zero_of_dvd (hstep.trans (Nat.dvd_of_mod_eq_zero hstates.bits_mod))
  obtain ⟨h, hread⟩ := (exists_decode_iff bytes kind).mpr
    ⟨hkind, ⟨hstates.code_eq, hstates.version_le⟩, ⟨hstates.le_bits, hmod⟩, hlength⟩
  obtain ⟨-, -, hfront, -⟩ := decode_eq_ok hread
  have hbits := hfront.numbers.2.2
  exact ⟨h, hread, hbits ▸ hmod, hbits ▸ hstates.bits_le⟩

end Signet.KeyHeader
