import Mathlib
import Signet.Key.Packet
import Signet.Proofs.Key.Header

/-! The fields that the reader of public keys takes. A field beyond the end of a byte string would
come out short, and nothing would be said of it. A strict reader breaks off at such a field, without
a result and without an error; it takes the same fields in the same order, and never breaks off.
Main statement: `PublicKey.decodeStrict_eq`. -/
namespace Signet

namespace Bytes

/-- The field of `length` bytes at `start`, where the bytes reach so far. -/
def field? (bytes : Bytes) (start length : ℕ) : Option { field : Bytes // field.length = length } :=
  if h : start + length ≤ bytes.length then some ⟨bytes.slice start length, length_slice h⟩
  else none

/-- A field of the bytes in front of a cut is a field of all bytes. -/
theorem slice_slice_zero (bytes : Bytes) {start length size : ℕ} (h : start + length ≤ size) :
    (bytes.slice 0 size).slice start length = bytes.slice start length := by
  rw [slice, slice, slice, List.drop_zero, List.drop_take, List.take_take, min_eq_left (by omega)]

end Bytes

/-- Reading that breaks off at a field out of range (`none`), apart from its results and errors. -/
abbrev Strict := ExceptT Error Option

namespace Strict

variable {α β : Type}

/-- A step that takes no field. -/
def step (x : Except Error α) : Strict α := ExceptT.mk (some x)

/-- Takes a field, which has to be there. -/
def field (bytes : Bytes) (start length : ℕ) :
    Strict { field : Bytes // field.length = length } :=
  ExceptT.lift (bytes.field? start length)

/-- Looks whether there is a field, and refuses the bytes if there is none. -/
def fieldOrMalformed (bytes : Bytes) (start length : ℕ) :
    Strict { field : Bytes // field.length = length } :=
  match bytes.field? start length with
  | some field => step (.ok field)
  | none => step (.error .malformed)

theorem step_ok_bind (a : α) (f : α → Strict β) : (step (.ok a) >>= f) = f a := rfl

theorem step_bind {x : Except Error α} {f : α → Strict β} {g : α → Except Error β}
    (h : ∀ a, x = .ok a → f a = step (g a)) : (step x >>= f) = step (x >>= g) := by
  cases x with
  | ok a => exact h a rfl
  | error e => rfl

theorem lift_some_bind (a : α) (f : α → Strict β) :
    ((ExceptT.lift (some a) : Strict α) >>= f) = f a := rfl

theorem field_bind {bytes : Bytes} {start length : ℕ} (h : start + length ≤ bytes.length)
    (f : { field : Bytes // field.length = length } → Strict β) :
    (field bytes start length >>= f) = f ⟨bytes.slice start length, Bytes.length_slice h⟩ := by
  rw [field, Bytes.field?, dif_pos h]
  rfl

theorem fieldOrMalformed_of_le {bytes : Bytes} {start length : ℕ}
    (h : start + length ≤ bytes.length) :
    fieldOrMalformed bytes start length =
      step (.ok ⟨bytes.slice start length, Bytes.length_slice h⟩) := by
  rw [fieldOrMalformed, Bytes.field?, dif_pos h]

theorem fieldOrMalformed_of_lt {bytes : Bytes} {start length : ℕ}
    (h : bytes.length < start + length) :
    fieldOrMalformed bytes start length = step (.error .malformed) := by
  rw [fieldOrMalformed, Bytes.field?, dif_neg (by omega)]

end Strict

open Strict

/-- Reads a header from fields that have to be there; only the header as a whole is looked for. -/
def KeyHeader.decodeStrict (bytes : Bytes) : Strict (PacketKind × KeyHeader) := do
  step (require (decide (8 ≤ bytes.length)) .malformed)
  let code ← field bytes 0 2
  let kind ← step (PacketKind.ofCode (Bytes.ofBigEndian code))
  let number ← field bytes 2 2
  let size ← field bytes 4 4
  let bits := UInt32.ofNat (Bytes.ofBigEndian size)
  match Version.ofNumber? (Bytes.ofBigEndian number) with
  | none => step (.error .malformed)
  | some version =>
    step (require (kind != .signature) .malformed)
    step (require (decide (minKeyBits ≤ bits.toNat) && bits.toNat % 16 == 0) .malformed)
    let head ← fieldOrMalformed bytes 0 version.headerSize
    let aliasField ← field head 32 version.aliasSize
    let id ← field head 16 8
    let create ← field head 8 8
    let expire ← field head 24 8
    step (.ok (kind,
      { version, bits
        id := UInt64.ofNat (Bytes.ofBigEndian id)
        create := (Timestamp.ofSecsBytes create).secs
        expire := (Timestamp.ofSecsBytes expire).secs
        aliasField
        length_aliasField := aliasField.property }))

def PublicKey.decodeStrict (bytes : Bytes) : Strict (PublicKey × ℕ) := do
  let (kind, header) ← KeyHeader.decodeStrict bytes
  step (require (kind == .publicKey) .malformed)
  let body ← fieldOrMalformed bytes header.encodedLength (2 * header.unit)
  let n ← step (Integer.load body header.bits.toNat)
  step (.ok ({ header, n }, header.encodedLength + 2 * header.unit))

theorem KeyHeader.decodeStrict_eq (bytes : Bytes) : decodeStrict bytes = step (decode bytes) := by
  rw [decodeStrict, decode]
  refine step_bind fun _ hlength => ?_
  rw [require_eq_ok_iff, decide_eq_true_eq] at hlength
  rw [field_bind (by omega)]
  refine step_bind fun kind _ => ?_
  rw [field_bind (by omega), field_bind (by omega)]
  dsimp only
  cases Version.ofNumber? (Bytes.ofBigEndian (bytes.slice 2 2)) with
  | none => rfl
  | some version =>
    refine step_bind fun _ _ => step_bind fun _ _ => ?_
    have hsize : 32 + version.aliasSize = version.headerSize := rfl
    by_cases hhead : 0 + version.headerSize ≤ bytes.length
    · have halias : (bytes.slice 32 version.aliasSize).length = version.aliasSize :=
        Bytes.length_slice (by omega)
      have hlong := Bytes.length_slice hhead
      rw [fieldOrMalformed_of_le hhead, step_ok_bind, dif_pos halias]
      dsimp only
      -- every field of the header ends within it
      rw [field_bind (by omega), field_bind (by omega), field_bind (by omega),
        field_bind (by omega)]
      simp only [Bytes.slice_slice_zero bytes hsize.le,
        Bytes.slice_slice_zero bytes (show 16 + 8 ≤ version.headerSize by omega),
        Bytes.slice_slice_zero bytes (show 8 + 8 ≤ version.headerSize by omega),
        Bytes.slice_slice_zero bytes (show 24 + 8 ≤ version.headerSize by omega)]
      rfl
    · have halias : ¬ (bytes.slice 32 version.aliasSize).length = version.aliasSize := by
        have hpositive : 0 < version.aliasSize := by cases version <;> decide
        rw [Bytes.slice, List.length_take, List.length_drop]
        omega
      rw [fieldOrMalformed_of_lt (by omega), dif_neg halias]
      rfl

/-- Every field that the reader of public keys takes is in range, whatever it is given. -/
theorem PublicKey.decodeStrict_eq (bytes : Bytes) : decodeStrict bytes = step (decode bytes) := by
  rw [decodeStrict, decode, KeyHeader.decodeStrict_eq]
  refine step_bind fun found _ => ?_
  obtain ⟨kind, header⟩ := found
  refine step_bind fun _ _ => ?_
  by_cases hbody : header.encodedLength + 2 * header.unit ≤ bytes.length
  · rw [fieldOrMalformed_of_le hbody, step_ok_bind]
    dsimp only
    rw [decide_eq_true hbody]
    exact step_bind fun _ _ => rfl
  · rw [fieldOrMalformed_of_lt (by omega)]
    dsimp only
    rw [decide_eq_false hbody]
    rfl

end Signet
