import Signet.Powers
/-!
Byte strings and fixed-width numbers in them. Writing a number in `width` bytes keeps it modulo
`256 ^ width`, and reading a byte string back gives the number whose bytes it holds.
-/
namespace Signet

open scoped Powers

abbrev Bytes := List UInt8

abbrev Block := Vector UInt8 16

namespace Bytes

def littleEndian : Nat → Nat → Bytes
  | 0, _ => []
  | width + 1, n => UInt8.ofNat n :: littleEndian width (n / 256)

def bigEndian (width n : Nat) : Bytes := (littleEndian width n).reverse

def ofLittleEndian : Bytes → Nat
  | [] => 0
  | b :: rest => b.toNat + 256 * ofLittleEndian rest

def ofBigEndian (bytes : Bytes) : Nat := ofLittleEndian bytes.reverse

def zeros (count : Nat) : Bytes := List.replicate count 0

def slice (bytes : Bytes) (start length : Nat) : Bytes := (bytes.drop start).take length

def pieces (size : Nat) : Nat → Bytes → List Bytes
  | 0, _ => []
  | count + 1, bytes => bytes.take size :: pieces size count (bytes.drop size)

/-- The whole pieces of `size` bytes, in order; bytes left over at the end belong to none. -/
def wholePieces (size : Nat) (bytes : Bytes) : List Bytes :=
  pieces size (bytes.length / size) bytes

def hexOfByte (b : UInt8) : List Char :=
  [Nat.digitChar (b.toNat / 16), Nat.digitChar (b.toNat % 16)]

def toHex (bytes : Bytes) : String := String.ofList (bytes.flatMap hexOfByte)

@[simp] theorem length_zeros (count : Nat) : (zeros count).length = count :=
  List.length_replicate ..

/-- Zero bytes fill a short enough byte string up to any length. -/
theorem length_append_zeros {bytes : Bytes} {length : Nat} (h : bytes.length ≤ length) :
    (bytes ++ zeros (length - bytes.length)).length = length := by
  rw [List.length_append, length_zeros]
  omega

@[simp] theorem length_littleEndian (width n : Nat) : (littleEndian width n).length = width := by
  induction width generalizing n with
  | zero => rfl
  | succ width ih => simp [littleEndian, ih]

@[simp] theorem length_bigEndian (width n : Nat) : (bigEndian width n).length = width := by
  simp [bigEndian]

theorem ofLittleEndian_littleEndian (width n : Nat) :
    ofLittleEndian (littleEndian width n) = n % 256 ^ width := by
  induction width generalizing n with
  | zero => simp [littleEndian, ofLittleEndian, Nat.mod_one]
  | succ width ih =>
    rw [littleEndian, ofLittleEndian, ih, Nat.pow_succ, Nat.mul_comm (256 ^ width), Nat.mod_mul]
    simp

theorem ofBigEndian_bigEndian (width n : Nat) :
    ofBigEndian (bigEndian width n) = n % 256 ^ width := by
  rw [ofBigEndian, bigEndian, List.reverse_reverse, ofLittleEndian_littleEndian]

theorem ofBigEndian_bigEndian_of_lt {width n : Nat} (h : n < 256 ^ width) :
    ofBigEndian (bigEndian width n) = n := by
  rw [ofBigEndian_bigEndian, Nat.mod_eq_of_lt h]

theorem littleEndian_ofLittleEndian (bytes : Bytes) :
    littleEndian bytes.length (ofLittleEndian bytes) = bytes := by
  induction bytes with
  | nil => rfl
  | cons b rest ih =>
    have hb := b.toNat_lt
    rw [ofLittleEndian, List.length_cons, littleEndian,
      show (b.toNat + 256 * ofLittleEndian rest) / 256 = ofLittleEndian rest by omega, ih]
    congr 1
    apply UInt8.toNat_inj.mp
    rw [UInt8.toNat_ofNat']
    omega

theorem bigEndian_ofBigEndian (bytes : Bytes) :
    bigEndian bytes.length (ofBigEndian bytes) = bytes := by
  have h := littleEndian_ofLittleEndian bytes.reverse
  rw [List.length_reverse] at h
  rw [bigEndian, ofBigEndian, h, List.reverse_reverse]

theorem ofLittleEndian_lt (bytes : Bytes) : ofLittleEndian bytes < 256 ^ bytes.length := by
  induction bytes with
  | nil => simp [ofLittleEndian]
  | cons b rest ih =>
    have hb := b.toNat_lt
    rw [ofLittleEndian, List.length_cons, Nat.pow_succ]
    omega

theorem ofBigEndian_lt (bytes : Bytes) : ofBigEndian bytes < 256 ^ bytes.length := by
  simpa [ofBigEndian] using ofLittleEndian_lt bytes.reverse

theorem ofLittleEndian_append (a b : Bytes) :
    ofLittleEndian (a ++ b) = ofLittleEndian a + 256 ^ a.length * ofLittleEndian b := by
  induction a with
  | nil => simp [ofLittleEndian]
  | cons x rest ih =>
    rw [List.cons_append, ofLittleEndian, ofLittleEndian, ih, List.length_cons, Nat.pow_succ,
      Nat.mul_add, ← Nat.mul_assoc, Nat.mul_comm 256 (256 ^ rest.length)]
    omega

theorem ofLittleEndian_zeros (count : Nat) : ofLittleEndian (zeros count) = 0 := by
  induction count with
  | zero => rfl
  | succ count ih =>
    rw [zeros, List.replicate_succ, ofLittleEndian, ← zeros, ih]
    rfl

theorem ofBigEndian_zeros_append (count : Nat) (bytes : Bytes) :
    ofBigEndian (zeros count ++ bytes) = ofBigEndian bytes := by
  have hzeros : (zeros count).reverse = zeros count := List.reverse_replicate ..
  rw [ofBigEndian, List.reverse_append, hzeros, ofLittleEndian_append, ofLittleEndian_zeros,
    Nat.mul_zero, Nat.add_zero, ofBigEndian]

theorem eq_bigEndian {bytes : Bytes} {width n : Nat} (hlength : bytes.length = width)
    (hvalue : ofBigEndian bytes = n) : bytes = bigEndian width n := by
  rw [← hlength, ← hvalue, bigEndian_ofBigEndian]

theorem slice_of_eq_append {bytes before field after : Bytes} {start length : Nat}
    (h : bytes = before ++ (field ++ after)) (hstart : before.length = start)
    (hlength : field.length = length) : slice bytes start length = field := by
  rw [slice, h, ← hstart, List.drop_left, ← hlength, List.take_left]

/-- A field at the front of what is left is read, and what stands behind it is left. -/
theorem read_next {bytes field rest : Bytes} {start length : Nat}
    (h : bytes.drop start = field ++ rest) (hlength : field.length = length) :
    bytes.slice start length = field ∧ bytes.drop (start + length) = rest := by
  constructor
  · rw [slice, h, ← hlength, List.take_left]
  · rw [← List.drop_drop, h, ← hlength, List.drop_left]

theorem getD_of_eq_append {bytes before after : Bytes} {b : UInt8} {i : Nat}
    (h : bytes = before ++ (b :: after)) (hlength : before.length = i) : bytes.getD i 0 = b := by
  rw [h, ← hlength, List.getD_eq_getElem?_getD, List.getElem?_append_right (Nat.le_refl _),
    Nat.sub_self]
  rfl

end Bytes
end Signet
