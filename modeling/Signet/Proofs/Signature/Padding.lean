import Mathlib
import Signet.Proofs.Integer.ByteStrings
import Signet.Proofs.Key.InRange
import Signet.Proofs.Signature.Payload

/-! The number of a payload, exactly. Its lowest 42 bytes are the fields, whatever stands above them,
so that any number which stays below the modulus by a byte is read as a payload, and as the same one
where only bytes of the filler differ. Written into a buffer of zeros and taken out of it at places
counted from its end, the fields are always in range, also where there is no room for a filler.
Main statements: `fields_ofNumber`, `ofMessage_eq_ofNumber`, `toMessageStrict_eq`,
`ofMessageStrict_eq` and `message_exact`. -/
namespace Signet

namespace Bytes

/-- The lower bytes of a number stand behind those of what is left without them. -/
theorem bigEndian_add (high low n : ℕ) :
    bigEndian (high + low) n = bigEndian high (n / 256 ^ low) ++ bigEndian low n := by
  rw [add_comm, bigEndian, littleEndian_add, List.reverse_append]
  rfl

theorem bigEndian_mod (width n : ℕ) : bigEndian width (n % 256 ^ width) = bigEndian width n := by
  rw [bigEndian, littleEndian_mod, bigEndian]

/-- Puts a field into a buffer at `start`, where the buffer reaches so far. -/
def put? (buffer : Bytes) (start : ℕ) (field : Bytes) : Option Bytes :=
  if start + field.length ≤ buffer.length then
    some (buffer.take start ++ field ++ buffer.drop (start + field.length))
  else none

/-- Puts a field into a buffer from `start` to its end, where it has that length. -/
def putLast? (buffer : Bytes) (start : ℕ) (field : Bytes) : Option Bytes :=
  if start + field.length = buffer.length then some (buffer.take start ++ field) else none

/-- The bytes from `start` to the end, where they are `length` bytes. -/
def last? (bytes : Bytes) (start length : ℕ) : Option { field : Bytes // field.length = length } :=
  if h : start + length = bytes.length then
    some ⟨bytes.drop start, by rw [List.length_drop]; omega⟩
  else none

section Fields

variable {before field rest : Bytes} {start : ℕ}

theorem put?_append (hstart : before.length = start) (hroom : field.length ≤ rest.length) :
    put? (before ++ rest) start field = some (before ++ field ++ rest.drop field.length) := by
  rw [put?, if_pos, ← List.drop_drop, ← hstart, List.take_left, List.drop_left]
  rw [List.length_append]
  omega

theorem put?_zero (hroom : field.length ≤ rest.length) :
    put? rest 0 field = some (field ++ rest.drop field.length) :=
  put?_append (List.length_nil) hroom

theorem putLast?_append (hstart : before.length = start) (hroom : field.length = rest.length) :
    putLast? (before ++ rest) start field = some (before ++ field) := by
  rw [putLast?, if_pos, ← hstart, List.take_left]
  rw [List.length_append, hstart, hroom]

theorem last?_of_eq {bytes : Bytes} {length : ℕ} (h : start + length = bytes.length) :
    last? bytes start length = some ⟨bytes.drop start, by rw [List.length_drop]; omega⟩ :=
  dif_pos h

theorem slice_eq_drop {bytes : Bytes} {length : ℕ} (h : start + length = bytes.length) :
    bytes.slice start length = bytes.drop start := by
  apply List.take_of_length_le
  rw [List.length_drop]
  omega

theorem getElem?_eq_getD {bytes : Bytes} {place : ℕ} (h : place < bytes.length) :
    bytes[place]? = some (bytes.getD place 0) := by
  rw [List.getD_eq_getElem _ _ h, List.getElem?_eq_getElem h]

end Fields

end Bytes

namespace Payload

open Strict

/-- The payload whose fields are the lowest 42 bytes of a number. -/
def ofNumber (n : ℕ) : Payload where
  time := ⟨(UInt64.ofNat (n / 256 ^ 34)).toInt64, 0⟩
  assertion := UInt8.ofNat (n / 256 ^ 33)
  sharing := UInt8.ofNat (n / 256 ^ 32)
  hash := .ofBytes (Bytes.bigEndian 32 n)

/-- The fields of a number are its lowest bytes. -/
theorem fields_ofNumber (n : ℕ) : (ofNumber n).fields = Bytes.bigEndian fieldsSize n := by
  have hsecs : (ofNumber n).time.secsBytes = Bytes.bigEndian 8 (n / 256 ^ 34) := by
    rw [Timestamp.secsBytes, ofNumber, UInt64.toUInt64_toInt64, UInt64.toNat_ofNat']
    exact Bytes.bigEndian_mod 8 _
  have hcodes : [(ofNumber n).assertion, (ofNumber n).sharing] =
      Bytes.bigEndian 1 (n / 256 ^ 33) ++ Bytes.bigEndian 1 (n / 256 ^ 32) := rfl
  have hhash : (ofNumber n).hash.toBytes = Bytes.bigEndian 32 n :=
    Digest.toBytes_ofBytes (Bytes.length_bigEndian ..)
  calc (ofNumber n).fields
    _ = Bytes.bigEndian 8 (n / 256 ^ 34) ++
          (Bytes.bigEndian 1 (n / 256 ^ 33) ++
            (Bytes.bigEndian 1 (n / 256 ^ 32) ++ Bytes.bigEndian 32 n)) := by
        rw [fields, hsecs, hcodes, hhash]
        simp only [List.append_assoc]
    _ = Bytes.bigEndian (8 + (1 + (1 + 32))) n := by
        simp only [Bytes.bigEndian_add]

/-- Only the lowest 42 bytes count. -/
theorem ofNumber_mod (n : ℕ) : ofNumber (n % 2 ^ 336) = ofNumber n := by
  have hpow : (2 : ℕ) ^ 336 = 256 ^ fieldsSize := by
    rw [fieldsSize, Bytes.pow_eq]
  have hfields : (ofNumber (n % 2 ^ 336)).fields = (ofNumber n).fields := by
    rw [fields_ofNumber, fields_ofNumber, hpow, Bytes.bigEndian_mod]
  -- neither of the two has a fraction of a second
  change (ofNumber (n % 2 ^ 336)).restored = (ofNumber n).restored
  rw [← ofFields_fields, hfields, ofFields_fields]

/-- A number below the modulus by a byte that is read as a payload, but for the fraction of its
time. -/
structure Carries (m : Integer) (bits : ℕ) (p : Payload) : Prop where
  nonneg : 0 ≤ m.toInt
  lt : m.toInt < 2 ^ (bits - 8)
  read : ofMessage m bits = .ok { p with time := p.time.trunc }

section Sizes

variable {bits : ℕ} (hmul : bits % 8 = 0) (hmin : 8 * (fieldsSize + 1) ≤ bits)
include hmul hmin

theorem carries_ofBytes (p : Payload) (front : Bytes)
    (hfront : front.length = bits / 8 - 1 - fieldsSize) :
    Carries (.ofBytes (front ++ p.fields)) bits p where
  nonneg := by
    rw [Integer.toInt_ofBytes]
    exact Int.natCast_nonneg _
  lt := ofBytes_lt hmul hmin p hfront
  read := ofMessage_ofBytes hmul hmin p front hfront

/-- A number that is no wider than the filler and the fields is read as its lowest bytes. -/
theorem ofMessage_eq_ofNumber {m : Integer} (hm : 0 ≤ m.toInt) (hlt : m.toInt < 2 ^ (bits - 8)) :
    ofMessage m bits = .ok (ofNumber m.toInt.toNat) := by
  set n := m.toInt.toNat with hn
  have hpad : bits / 8 - 1 - fieldsSize + fieldsSize = bits / 8 - 1 := by
    rw [fieldsSize] at hmin ⊢
    omega
  have hfits : n < 256 ^ (bits / 8 - 1) := by
    rw [pow_room hmul]
    zify
    omega
  -- the bytes above the fields are taken for the filler, whatever they are
  have hbytes : Bytes.bigEndian (bits / 8 - 1 - fieldsSize) (n / 256 ^ fieldsSize) ++
      (ofNumber n).fields = Bytes.bigEndian (bits / 8 - 1) n := by
    rw [fields_ofNumber, ← Bytes.bigEndian_add, hpad]
  have hnumber : m = .ofBytes (Bytes.bigEndian (bits / 8 - 1) n) := by
    rw [← Integer.toInt_inj, Integer.toInt_ofBytes, Bytes.ofBigEndian_bigEndian_of_lt hfits]
    omega
  rw [hnumber, ← hbytes, ofMessage_ofBytes hmul hmin _ _ (Bytes.length_bigEndian ..)]
  rfl

/-- A number that is wider is refused. -/
theorem ofMessage_of_le {m : Integer} (h : 2 ^ (bits - 8) ≤ m.toInt.natAbs) :
    ofMessage m bits = .error .malformed := by
  have hwidths : Integer.Widths (bits - 8) (bits - 8) := ⟨by omega, by omega, le_rfl⟩
  have hwide : m.bits > bits - 8 := by
    rwa [gt_iff_lt, ← not_le, Integer.bits_le_iff, not_lt]
  rw [ofMessage, messageSize_eq_ok hmul hmin, ok_bind, Integer.save_of_widths hwidths,
    if_pos hwide, error_bind]

theorem ofMessage_eq_malformed_iff {m : Integer} (hm : 0 ≤ m.toInt) :
    ofMessage m bits = .error .malformed ↔ 2 ^ (bits - 8) ≤ m.toInt := by
  constructor
  · intro h
    by_contra hlt
    rw [ofMessage_eq_ofNumber hmul hmin hm (not_le.mp hlt)] at h
    cases h
  · intro h
    apply ofMessage_of_le hmul hmin
    zify
    rwa [abs_of_nonneg hm]

end Sizes

theorem messageSize_eq_ok_iff {bits size : ℕ} :
    messageSize bits = .ok size ↔ (bits % 8 = 0 ∧ 344 ≤ bits) ∧ size = bits / 8 - 1 := by
  constructor
  · intro h
    rw [messageSize, fieldsSize] at h
    split_ifs at h with hguard
    simp only [Bool.or_eq_true, decide_eq_true_eq, not_or] at hguard
    exact ⟨⟨by omega, by omega⟩, (Except.ok.inj h).symm⟩
  · rintro ⟨⟨hmul, hmin⟩, rfl⟩
    exact messageSize_eq_ok hmul hmin

theorem le_of_messageSize {bits size : ℕ} (h : messageSize bits = .ok size) :
    fieldsSize ≤ size := by
  obtain ⟨⟨hmul, hmin⟩, rfl⟩ := messageSize_eq_ok_iff.mp h
  rw [fieldsSize]
  omega

theorem messageSize_eq_error {bits : ℕ} (h : bits < 344 ∨ bits % 8 ≠ 0) :
    messageSize bits = .error .invalidParameter := by
  rw [messageSize, fieldsSize, if_pos]
  simp only [Bool.or_eq_true, decide_eq_true_eq]
  omega

section InRange

/-- Puts the fields into the end of a buffer, each where it has to find room. -/
def putFields? (p : Payload) (buffer : Bytes) (start : ℕ) : Option Bytes := do
  let buffer ← buffer.put? start p.time.secsBytes
  let buffer ← buffer.put? (start + 8) [p.assertion]
  let buffer ← buffer.put? (start + 9) [p.sharing]
  buffer.putLast? (start + 10) p.hash.toBytes

def toMessageStrict (p : Payload) (bits : ℕ) : Strict Integer := do
  let size ← step (messageSize bits)
  let start ← ExceptT.lift (size.psub fieldsSize)
  let buffer := Bytes.zeros size
  let chain : Md5Chain := (HashChain.empty.absorb p.time.saltBytes).absorb p.hash.toBytes
  let buffer ← ExceptT.lift (buffer.put? 0 (chain.fillOver (buffer.take start)).1)
  let buffer ← ExceptT.lift (p.putFields? buffer start)
  let width ← ExceptT.lift (bits.psub 8)
  step (Integer.load buffer width)

/-- Takes the fields, each where it has to be, and nothing is to stand behind them. -/
def ofFieldsStrict (fields : Bytes) : Strict Payload := do
  let secs ← field fields 0 8
  let assertion ← ExceptT.lift fields[8]?
  let sharing ← ExceptT.lift fields[9]?
  let hash ← ExceptT.lift (fields.last? 10 32)
  step (.ok { time := .ofSecsBytes secs, assertion, sharing, hash := .ofBytes hash })

def ofMessageStrict (m : Integer) (bits : ℕ) : Strict Payload := do
  let size ← step (messageSize bits)
  let width ← ExceptT.lift (bits.psub 8)
  let bytes ← step (m.save width width)
  let start ← ExceptT.lift (size.psub fieldsSize)
  let fields ← ExceptT.lift (bytes.last? start fieldsSize)
  ofFieldsStrict fields

/-- The fields fill the room behind a filler, whatever stands there. -/
theorem putFields?_append (p : Payload) {filler rest : Bytes} {start : ℕ}
    (hstart : filler.length = start) (hrest : rest.length = fieldsSize) :
    p.putFields? (filler ++ rest) start = some (filler ++ p.fields) := by
  rw [fieldsSize] at hrest
  -- what is written goes over to the front, and the rest of the room is used up by the last field
  rw [putFields?, Bytes.put?_append hstart (by simp [hrest])]
  dsimp only [Option.bind_eq_bind, Option.bind_some]
  rw [Bytes.put?_append (by simp [hstart]) (by simp [hrest]), Option.bind_some,
    Bytes.put?_append (by simp [hstart]) (by simp [hrest]), Option.bind_some,
    Bytes.putLast?_append (by simp [hstart]) (by simp [hrest])]
  simp [fields]

/-- Every part of a payload finds its place in the buffer, and no zero of the buffer is left. -/
theorem toMessageStrict_eq (p : Payload) (bits : ℕ) :
    p.toMessageStrict bits = step (p.toMessage bits) := by
  rw [toMessageStrict, toMessage]
  refine step_bind fun size hsize => ?_
  obtain ⟨⟨hmul, hmin⟩, rfl⟩ := messageSize_eq_ok_iff.mp hsize
  have hroom := le_of_messageSize hsize
  rw [Nat.psub_eq_sub hroom, lift_some_bind]
  set start := bits / 8 - 1 - fieldsSize with hstart
  have htake : ((Bytes.zeros (bits / 8 - 1)).take start).length = start := by
    rw [List.length_take, Bytes.length_zeros]
    omega
  have hlength : (p.filler start).length = start := HashChain.length_fill _ _
  -- the filler takes the whole buffer but the room for the fields, which may be all of it
  have hfiller : (Bytes.zeros (bits / 8 - 1)).put? 0 (p.filler start) =
      some (p.filler start ++ (Bytes.zeros (bits / 8 - 1)).drop start) := by
    rw [Bytes.put?_zero, hlength]
    rw [hlength, Bytes.length_zeros]
    omega
  have hrest : ((Bytes.zeros (bits / 8 - 1)).drop start).length = fieldsSize := by
    rw [List.length_drop, Bytes.length_zeros]
    omega
  dsimp only
  rw [HashChain.fillOver_eq, htake]
  change (ExceptT.lift ((Bytes.zeros (bits / 8 - 1)).put? 0 (p.filler start)) >>= _) = _
  rw [hfiller, lift_some_bind, p.putFields?_append hlength hrest, lift_some_bind,
    Nat.psub_eq_sub (by omega), lift_some_bind]

theorem ofFieldsStrict_eq {fields : Bytes} (h : fields.length = fieldsSize) :
    ofFieldsStrict fields = step (.ok (ofFields fields)) := by
  rw [fieldsSize] at h
  have hhash : fields.slice 10 32 = fields.drop 10 := Bytes.slice_eq_drop h.symm
  rw [ofFieldsStrict, field_bind (by omega), Bytes.getElem?_eq_getD (by omega), lift_some_bind,
    Bytes.getElem?_eq_getD (by omega), lift_some_bind, Bytes.last?_of_eq (by omega),
    lift_some_bind, ofFields, hhash]

/-- Every field is where it is looked for, whatever the number. -/
theorem ofMessageStrict_eq (m : Integer) (bits : ℕ) :
    ofMessageStrict m bits = step (ofMessage m bits) := by
  rw [ofMessageStrict, ofMessage]
  refine step_bind fun size hsize => ?_
  obtain ⟨⟨hmul, hmin⟩, rfl⟩ := messageSize_eq_ok_iff.mp hsize
  rw [Nat.psub_eq_sub (by omega), lift_some_bind]
  refine step_bind fun bytes hbytes => ?_
  -- zeros fill the bytes up to the width, so that the last of them are the fields
  obtain ⟨⟨-, hfits⟩, hbytes⟩ := Integer.save_eq_ok_iff.mp hbytes
  have hlength : bytes.length = bits / 8 - 1 := by
    rw [hbytes, List.length_append, Bytes.length_zeros, Integer.length_toBytes]
    omega
  have hroom := le_of_messageSize hsize
  have hfields : (bytes.drop (bits / 8 - 1 - fieldsSize)).length = fieldsSize := by
    rw [List.length_drop]
    omega
  rw [Nat.psub_eq_sub hroom, lift_some_bind, Bytes.last?_of_eq (by omega), lift_some_bind,
    ofFieldsStrict_eq hfields]
  rfl

end InRange

/-- The number of a payload, exactly. A modulus of whole bytes that leaves room for the fields has a
number for every payload, with any filler, which stays below it by a byte and is read as that
payload in whole seconds. Any number that is not negative is refused where it is too wide, and is
otherwise read as the fields that its lowest 42 bytes hold. There is nothing for a modulus of
another size, and nowhere is a field out of range. -/
theorem message_exact (bits : ℕ) :
    (bits % 8 = 0 → 344 ≤ bits →
      (bits ≤ Integer.maxBits → ∀ p : Payload, ∃ m, p.toMessage bits = .ok m ∧ Carries m bits p) ∧
      (∀ (p : Payload) (filler : Bytes), 8 * (filler.length + 43) = bits →
        Carries (.ofBytes (filler ++ p.fields)) bits p) ∧
      ∀ m : Integer, 0 ≤ m.toInt →
        (ofMessage m bits = .error .malformed ↔ 2 ^ (bits - 8) ≤ m.toInt) ∧
        (m.toInt < 2 ^ (bits - 8) →
          ofMessage m bits = .ok (ofNumber (m.toInt.toNat % 2 ^ 336)))) ∧
    (bits < 344 ∨ bits % 8 ≠ 0 →
      (∀ p : Payload, p.toMessage bits = .error .invalidParameter) ∧
      ∀ m, ofMessage m bits = .error .invalidParameter) ∧
    (∀ p : Payload, p.toMessageStrict bits = step (p.toMessage bits)) ∧
    ∀ m, ofMessageStrict m bits = step (ofMessage m bits) := by
  refine ⟨fun hmul hmin => ⟨fun hmax p => ?_, fun p filler hfiller => ?_, fun m hm => ⟨?_, ?_⟩⟩,
    fun h => ⟨fun p => ?_, fun m => ?_⟩, fun p => toMessageStrict_eq p bits,
    fun m => ofMessageStrict_eq m bits⟩
  · obtain ⟨m, hm, hnonneg, hlt, hread⟩ := toMessage_spec hmul hmin p hmax
    exact ⟨m, hm, hnonneg, hlt, hread⟩
  · apply carries_ofBytes hmul hmin
    rw [fieldsSize]
    omega
  · exact ofMessage_eq_malformed_iff hmul hmin hm
  · intro hlt
    rw [ofNumber_mod]
    exact ofMessage_eq_ofNumber hmul hmin hm hlt
  · rw [toMessage, messageSize_eq_error h, error_bind]
  · rw [ofMessage, messageSize_eq_error h, error_bind]

/-- A second before the start of the year 2000 and a part of a second more: without a filler, and
behind one that is zero, read back without the part. A number of no more than a byte, one that is a
byte too wide, and a modulus that is a byte too short. -/
theorem message_exact_sample :
    (∃ m, (⟨⟨-1, 5⟩, 9, 1, .zero⟩ : Payload).toMessage 344 = .ok m ∧
      ofMessage m 344 = .ok ⟨⟨-1, 0⟩, 9, 1, .zero⟩) ∧
    ofMessage (.ofBytes (0 :: fields ⟨⟨-1, 5⟩, 9, 1, .zero⟩)) 352 = .ok ⟨⟨-1, 0⟩, 9, 1, .zero⟩ ∧
    ofMessage (.ofBytes [7]) 344 = .ok (ofNumber 7) ∧
    ofMessage (.ofBytes (1 :: Bytes.zeros 42)) 344 = .error .malformed ∧
    (⟨⟨-1, 5⟩, 9, 1, .zero⟩ : Payload).toMessage 336 = .error .invalidParameter := by
  have hsmall : (Integer.ofBytes [7]).toInt = 7 := by
    rw [Integer.toInt_ofBytes]
    rfl
  have hwide : (Integer.ofBytes (1 :: Bytes.zeros 42)).toInt = 2 ^ (344 - 8) := by
    have hvalue : Bytes.ofBigEndian (1 :: Bytes.zeros 42) = 256 ^ (344 / 8 - 1) := by
      decide +kernel
    rw [Integer.toInt_ofBytes, hvalue, pow_room rfl]
    exact Nat.cast_pow 2 _
  obtain ⟨hwrite, -, hread⟩ := (message_exact 344).1 (by decide) (by decide)
  obtain ⟨-, hfiller, -⟩ := (message_exact 352).1 (by decide) (by decide)
  obtain ⟨m, hm, -, -, hback⟩ := hwrite (by decide) ⟨⟨-1, 5⟩, 9, 1, .zero⟩
  refine ⟨⟨m, hm, hback⟩, (hfiller _ [0] rfl).read, ?_, ?_,
    ((message_exact 336).2.1 (by decide)).1 _⟩
  · have hfits : (7 : ℤ) < 2 ^ (344 - 8) :=
      lt_of_lt_of_le (by norm_num : (7 : ℤ) < 2 ^ 3) (pow_le_pow_right₀ (by norm_num) (by norm_num))
    have h := (hread (.ofBytes [7]) (by rw [hsmall]; decide)).2
    rw [hsmall, ofNumber_mod] at h
    exact h hfits
  · exact (hread _ (by rw [hwide]; positivity)).1.mpr hwide.ge

end Payload
end Signet
