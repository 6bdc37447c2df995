import Signet.Bytes
import Signet.Integer.Basic
/-!
Integers as byte strings, highest byte first. A byte string is a row of digits in base 256, so
that a fixed width is reached by leading zero bytes.
-/
namespace Signet.Integer

def ofBytes (bytes : Bytes) : Integer :=
  ofMagnitude false (.ofDigits 256 (bytes.map UInt8.toNat))

/-- The unsigned number held by the first `width` binary digits, a whole number of bytes. -/
def load (bytes : Bytes) (width : Nat) : Except Error Integer :=
  if width % 8 ≠ 0 then .error .invalidParameter
  else if width > maxBits then .error .tooLarge
  else if bytes.length < width / 8 then .error .invalidParameter
  else .ok (ofBytes (bytes.take (width / 8)))

/-- The fewest bytes that hold the absolute value; none for zero. -/
def toBytes (x : Integer) : Bytes :=
  (x.magnitude.toDigits 256).map UInt8.ofNat

def toFixedBytes (x : Integer) (length : Nat) : Except Error Bytes :=
  let bytes := x.toBytes
  if bytes.length > length then .error .malformed
  else .ok (Bytes.zeros (length - bytes.length) ++ bytes)

/-- Fills a buffer with the absolute value, the last byte lowest. A value that does not fit leaves
the buffer as it is. -/
def writeInto (x : Integer) (buffer : Bytes) : Except Error Unit × Bytes :=
  match x.toFixedBytes buffer.length with
  | .ok bytes => (.ok (), bytes)
  | .error e => (.error e, buffer)

/-- The absolute value in as few bytes as hold it and `minBits`, refused beyond `maxBits`. -/
def save (x : Integer) (maxBits minBits : Nat) : Except Error Bytes :=
  if maxBits % 8 ≠ 0 || minBits % 8 ≠ 0 || minBits > maxBits then .error .invalidParameter
  else if x.bits > maxBits then .error .malformed
  else
    let bytes := x.toBytes
    .ok (Bytes.zeros (minBits / 8 - bytes.length) ++ bytes)

end Signet.Integer
