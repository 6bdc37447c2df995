import Mathlib
import Signet.Integer.Basic
import Signet.Packet
import Signet.Timestamp

/-! What every stored packet starts with: its kind, the version of its layout, the size of a
modulus, a time, a number and another time, in 32 bytes. What a reader finds there is what was
written, and is written as it was found. Main statements: `readsFront_front` and
`ReadsFront.take_eq`, and for readers of whole packets `ReadsExactly.read_take_append`. -/
namespace Signet

namespace Bytes

/-- The number in the field of `length` bytes at `start`, the highest byte first. -/
def numberAt (bytes : Bytes) (start length : ℕ) : ℕ := ofBigEndian (bytes.slice start length)

theorem length_slice {bytes : Bytes} {start length : ℕ} (h : start + length ≤ bytes.length) :
    (bytes.slice start length).length = length := by
  rw [slice, List.length_take, List.length_drop]
  omega

theorem slice_eq_bigEndian (bytes : Bytes) (start length : ℕ)
    (h : start + length ≤ bytes.length) :
    bytes.slice start length = bigEndian length (bytes.numberAt start length) :=
  eq_bigEndian (length_slice h) rfl

/-- A field holds a number that has room in it exactly when it is written as that number. -/
theorem slice_eq_bigEndian_iff {bytes : Bytes} {start length n : ℕ}
    (h : start + length ≤ bytes.length) (hn : n < 256 ^ length) :
    bytes.slice start length = bigEndian length n ↔ bytes.numberAt start length = n := by
  constructor
  · intro hfield
    rw [numberAt, hfield, ofBigEndian_bigEndian_of_lt hn]
  · rintro rfl
    exact bytes.slice_eq_bigEndian start length h

theorem numberAt_lt (bytes : Bytes) (start length : ℕ) :
    bytes.numberAt start length < 256 ^ length := by
  have hlt := ofBigEndian_lt (bytes.slice start length)
  refine hlt.trans_le (Nat.pow_le_pow_right (by norm_num) ?_)
  rw [slice, List.length_take]
  exact min_le_left _ _

/-- What is read up to the end of a field is what stands before the field, and the field. -/
theorem take_add (bytes : Bytes) (start length : ℕ) :
    bytes.take (start + length) = bytes.take start ++ bytes.slice start length := List.take_add

theorem slice_two {bytes : Bytes} {start : ℕ} (h : start + 2 ≤ bytes.length) :
    bytes.slice start 2 = [bytes.getD start 0, bytes.getD (start + 1) 0] := by
  rw [slice, List.drop_eq_getElem_cons (by omega), List.drop_eq_getElem_cons (by omega),
    List.take_succ_cons, List.take_succ_cons, List.take_zero, List.getD_eq_getElem _ _ (by omega),
    List.getD_eq_getElem _ _ (by omega)]

theorem drop_eq_slice_append (bytes : Bytes) (start length : ℕ) {next : ℕ}
    (h : start + length = next) :
    bytes.drop start = bytes.slice start length ++ bytes.drop next := by
  rw [slice, ← h, ← List.drop_drop, List.take_append_drop]

end Bytes

/-- A reader finds a value, with the number of bytes read, exactly where the bytes begin with what
the value is written as. -/
def ReadsExactly {α : Type} (read : Bytes → Except Error (α × ℕ)) (writtenAs : α → Bytes → Prop) :
    Prop :=
  ∀ bytes a used, read bytes = .ok (a, used) ↔
    ∃ out, writtenAs a out ∧ out <+: bytes ∧ used = out.length

namespace ReadsExactly

variable {α : Type} {read : Bytes → Except Error (α × ℕ)} {writtenAs : α → Bytes → Prop}
  (h : ReadsExactly read writtenAs) {bytes : Bytes} {a : α} {used : ℕ}
  (hread : read bytes = .ok (a, used))
include h hread

/-- What was read is written as the bytes that it was read from. -/
theorem writtenAs_take : writtenAs a (bytes.take used) := by
  obtain ⟨out, hout, hbegins, rfl⟩ := (h _ _ _).mp hread
  rwa [← List.prefix_iff_eq_take.mp hbegins]

/-- Nothing behind what was read is looked at. -/
theorem read_take_append (rest : Bytes) : read (bytes.take used ++ rest) = .ok (a, used) := by
  obtain ⟨out, hout, hbegins, rfl⟩ := (h _ _ _).mp hread
  rw [← List.prefix_iff_eq_take.mp hbegins]
  exact (h _ _ _).mpr ⟨out, hout, List.prefix_append _ _, rfl⟩

end ReadsExactly

theorem PacketKind.ofCode_code (kind : PacketKind) : ofCode kind.code = .ok kind := by
  cases kind <;> rfl

theorem PacketKind.code_of_ofCode {n : ℕ} {kind : PacketKind} (h : ofCode n = .ok kind) :
    n = kind.code := by
  rw [ofCode] at h
  split_ifs at h with hpublic hprivate hsignature
  · obtain rfl := Except.ok.inj h
    exact hpublic
  · obtain rfl := Except.ok.inj h
    exact hprivate
  · obtain rfl := Except.ok.inj h
    exact hsignature

theorem PacketKind.ofCode_eq_error {n : ℕ} {e : Error} (h : ofCode n = .error e) :
    e = .malformed := by
  rw [ofCode] at h
  split_ifs at h
  exact (Except.error.inj h).symm

theorem Version.ofNumber?_number (v : Version) : ofNumber? v.number = some v := by
  cases v <;> rfl

theorem Version.ofNumber?_eq_some_iff {n : ℕ} {v : Version} :
    ofNumber? n = some v ↔ n = v.number := by
  constructor
  · intro h
    match n with
    | 0 => cases h; rfl
    | 1 => cases h; rfl
  · rintro rfl
    exact ofNumber?_number v

/-- There are two versions, numbered from zero. -/
theorem Version.exists_number_iff {n : ℕ} : (∃ v : Version, n = v.number) ↔ n ≤ 1 := by
  constructor
  · rintro ⟨v, rfl⟩
    cases v <;> decide
  · intro h
    interval_cases n
    · exact ⟨.legacy, rfl⟩
    · exact ⟨.current, rfl⟩

namespace Timestamp

@[simp] theorem length_secsBytes (t : Timestamp) : t.secsBytes.length = 8 :=
  Bytes.length_bigEndian ..

theorem ofSecsBytes_secsBytes (t : Timestamp) : ofSecsBytes t.secsBytes = t.trunc := by
  have hlt : t.secs.toUInt64.toNat < 256 ^ 8 := t.secs.toUInt64.toNat_lt
  rw [ofSecsBytes, secsBytes, Bytes.ofBigEndian_bigEndian, Nat.mod_eq_of_lt hlt, UInt64.ofNat_toNat,
    trunc, Int64.toInt64_toUInt64]

theorem secsBytes_ofSecsBytes {bytes : Bytes} (h : bytes.length = 8) :
    (ofSecsBytes bytes).secsBytes = bytes := by
  have hlt := Bytes.ofBigEndian_lt bytes
  rw [h] at hlt
  have hvalue : (ofSecsBytes bytes).secs.toUInt64.toNat = Bytes.ofBigEndian bytes := by
    rw [ofSecsBytes, UInt64.toUInt64_toInt64]
    exact UInt64.toNat_ofNat_of_lt' hlt
  rw [secsBytes, hvalue, ← h, Bytes.bigEndian_ofBigEndian]

end Timestamp

namespace Packet

/-- What the first eight bytes have to say: the code of a kind, one of the two versions, and a size
of the modulus that is a multiple of `step` within the bounds. -/
@[mk_iff]
structure States (bytes : Bytes) (code step : ℕ) : Prop where
  code_eq : bytes.numberAt 0 2 = code
  version_le : bytes.numberAt 2 2 ≤ 1
  le_bits : 512 ≤ bytes.numberAt 4 4
  bits_le : bytes.numberAt 4 4 ≤ Integer.maxBits
  bits_mod : bytes.numberAt 4 4 % step = 0

instance (bytes : Bytes) (code step : ℕ) : Decidable (States bytes code step) :=
  decidable_of_iff' _ (states_iff bytes code step)

def front (kind : PacketKind) (version : Version) (bits : UInt32) (first : Int64) (id : UInt64)
    (second : Int64) : Bytes :=
  Bytes.bigEndian 2 kind.code ++ (Bytes.bigEndian 2 version.number ++
    (Bytes.bigEndian 4 bits.toNat ++ (Timestamp.secsBytes ⟨first, 0⟩ ++
      (Bytes.bigEndian 8 id.toNat ++ Timestamp.secsBytes ⟨second, 0⟩))))

/-- What a reader finds at the places of the fields. -/
structure ReadsFront (bytes : Bytes) (kind : PacketKind) (version : Version) (bits : UInt32)
    (first : Int64) (id : UInt64) (second : Int64) : Prop where
  kind_eq : PacketKind.ofCode (Bytes.ofBigEndian (bytes.slice 0 2)) = .ok kind
  version_eq : Version.ofNumber? (Bytes.ofBigEndian (bytes.slice 2 2)) = some version
  bits_eq : UInt32.ofNat (Bytes.ofBigEndian (bytes.slice 4 4)) = bits
  first_eq : (Timestamp.ofSecsBytes (bytes.slice 8 8)).secs = first
  id_eq : UInt64.ofNat (Bytes.ofBigEndian (bytes.slice 16 8)) = id
  second_eq : (Timestamp.ofSecsBytes (bytes.slice 24 8)).secs = second

section

variable (kind : PacketKind) (version : Version) (bits : UInt32) (first : Int64) (id : UInt64)
  (second : Int64)

@[simp] theorem length_front : (front kind version bits first id second).length = 32 := by
  simp only [front, List.length_append, Bytes.length_bigEndian, Timestamp.length_secsBytes]

/-- Every field is read back from where it was written, whatever stands behind them. -/
theorem readsFront_front (rest : Bytes) :
    ReadsFront (front kind version bits first id second ++ rest) kind version bits first id
      second := by
  have hkind : kind.code < 256 ^ 2 := by cases kind <;> decide
  have hversion : version.number < 256 ^ 2 := by cases version <;> decide
  have hbits : bits.toNat < 256 ^ 4 := bits.toNat_lt
  have hid : id.toNat < 256 ^ 8 := id.toNat_lt
  have h : (front kind version bits first id second ++ rest).drop 0 =
      Bytes.bigEndian 2 kind.code ++ (Bytes.bigEndian 2 version.number ++
        (Bytes.bigEndian 4 bits.toNat ++ (Timestamp.secsBytes ⟨first, 0⟩ ++
          (Bytes.bigEndian 8 id.toNat ++ (Timestamp.secsBytes ⟨second, 0⟩ ++ rest))))) := by
    simp only [front, List.append_assoc, List.drop_zero]
  generalize front kind version bits first id second ++ rest = bytes at h
  obtain ⟨kind_at, h⟩ := Bytes.read_next h (Bytes.length_bigEndian ..)
  obtain ⟨version_at, h⟩ := Bytes.read_next h (Bytes.length_bigEndian ..)
  obtain ⟨bits_at, h⟩ := Bytes.read_next h (Bytes.length_bigEndian ..)
  obtain ⟨first_at, h⟩ := Bytes.read_next h (Timestamp.length_secsBytes _)
  obtain ⟨id_at, h⟩ := Bytes.read_next h (Bytes.length_bigEndian ..)
  obtain ⟨second_at, -⟩ := Bytes.read_next h (Timestamp.length_secsBytes _)
  constructor
  case kind_eq => rw [kind_at, Bytes.ofBigEndian_bigEndian_of_lt hkind, PacketKind.ofCode_code]
  case version_eq =>
    rw [version_at, Bytes.ofBigEndian_bigEndian_of_lt hversion, Version.ofNumber?_number]
  case bits_eq => rw [bits_at, Bytes.ofBigEndian_bigEndian_of_lt hbits, UInt32.ofNat_toNat]
  case first_eq => rw [first_at, Timestamp.ofSecsBytes_secsBytes]; rfl
  case id_eq => rw [id_at, Bytes.ofBigEndian_bigEndian_of_lt hid, UInt64.ofNat_toNat]
  case second_eq => rw [second_at, Timestamp.ofSecsBytes_secsBytes]; rfl

end

/-- Any bytes that start with the codes of a kind and of a version are taken for a front. -/
theorem exists_readsFront {bytes : Bytes} {kind : PacketKind}
    (hcode : bytes.numberAt 0 2 = kind.code) (hversion : bytes.numberAt 2 2 ≤ 1) :
    ∃ version bits first id second, ReadsFront bytes kind version bits first id second := by
  obtain ⟨version, hnumber⟩ := Version.exists_number_iff.mpr hversion
  refine ⟨version, _, _, _, _, ?_, Version.ofNumber?_eq_some_iff.mpr hnumber, rfl, rfl, rfl, rfl⟩
  change PacketKind.ofCode (bytes.numberAt 0 2) = _
  rw [hcode, PacketKind.ofCode_code]

namespace ReadsFront

variable {bytes : Bytes} {kind : PacketKind} {version : Version} {bits : UInt32} {first : Int64}
  {id : UInt64} {second : Int64} (h : ReadsFront bytes kind version bits first id second)
include h

/-- The first three fields are numbers of their own right. -/
theorem numbers : bytes.numberAt 0 2 = kind.code ∧ bytes.numberAt 2 2 = version.number ∧
    bytes.numberAt 4 4 = bits.toNat := by
  refine ⟨PacketKind.code_of_ofCode h.kind_eq, Version.ofNumber?_eq_some_iff.mp h.version_eq, ?_⟩
  have hlt : bytes.numberAt 4 4 < 2 ^ 32 := bytes.numberAt_lt 4 4
  rw [← h.bits_eq]
  exact (UInt32.toNat_ofNat_of_lt' hlt).symm

/-- Written anew, what was found gives the bytes where it was found. -/
theorem take_eq (hlength : 32 ≤ bytes.length) :
    bytes.take 32 = front kind version bits first id second := by
  obtain ⟨hkind, hversion, hbits⟩ := h.numbers
  have hfirst : bytes.slice 8 8 = Timestamp.secsBytes ⟨first, 0⟩ := by
    rw [← h.first_eq]
    exact (Timestamp.secsBytes_ofSecsBytes (Bytes.length_slice (by omega))).symm
  have hid : bytes.numberAt 16 8 = id.toNat := by
    rw [← h.id_eq]
    exact (UInt64.toNat_ofNat_of_lt' (bytes.numberAt_lt 16 8)).symm
  have hsecond : bytes.slice 24 8 = Timestamp.secsBytes ⟨second, 0⟩ := by
    rw [← h.second_eq]
    exact (Timestamp.secsBytes_ofSecsBytes (Bytes.length_slice (by omega))).symm
  -- field by field, from the last one to the first
  rw [bytes.take_add 24 8, bytes.take_add 16 8, bytes.take_add 8 8, bytes.take_add 4 4,
    bytes.take_add 2 2, bytes.take_add 0 2, List.take_zero, List.nil_append, front]
  rw [hfirst, hsecond, bytes.slice_eq_bigEndian 0 2 (by omega),
    bytes.slice_eq_bigEndian 2 2 (by omega), bytes.slice_eq_bigEndian 4 4 (by omega),
    bytes.slice_eq_bigEndian 16 8 (by omega), hkind, hversion, hbits, hid]
  simp only [List.append_assoc]

end ReadsFront

end Packet
end Signet
