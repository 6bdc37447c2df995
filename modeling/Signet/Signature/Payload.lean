import Signet.Digest.Basic
import Signet.HashChain
import Signet.Integer.Octets
import Signet.Timestamp
/-!
What the operation of a key is applied to: a filler, a time, two codes and a digest, read as one
number. The number takes one byte less than the modulus, so that it stays below it. The filler comes
from a chain of digests salted with the time and the digest, so that equal payloads have equal
numbers.
-/
namespace Signet

/-- The fields of a payload, with codes that are not looked up yet. -/
structure Payload where
  time : Timestamp
  assertion : UInt8
  sharing : UInt8
  hash : Digest
deriving DecidableEq

namespace Payload

def fieldsSize : Nat := 42

/-- How many bytes the number takes for a modulus of so many binary digits. -/
def messageSize (bits : Nat) : Except Error Nat :=
  if bits % 8 ≠ 0 || bits / 8 < fieldsSize + 1 then .error .invalidParameter
  else .ok (bits / 8 - 1)

def fields (p : Payload) : Bytes :=
  p.time.secsBytes ++ [p.assertion, p.sharing] ++ p.hash.toBytes

def filler (p : Payload) (length : Nat) : Bytes :=
  let chain : Md5Chain := HashChain.empty
  (((chain.absorb p.time.saltBytes).absorb p.hash.toBytes).fill length).1

def toMessage (p : Payload) (bits : Nat) : Except Error Integer := do
  let size ← messageSize bits
  Integer.load (p.filler (size - fieldsSize) ++ p.fields) (bits - 8)

def ofMessage (m : Integer) (bits : Nat) : Except Error Payload := do
  let size ← messageSize bits
  let bytes ← m.save (bits - 8) (bits - 8)
  let fields : Bytes := bytes.drop (size - fieldsSize)
  return {
    time := .ofSecsBytes (fields.slice 0 8)
    assertion := fields.getD 8 0
    sharing := fields.getD 9 0
    hash := .ofBytes (fields.slice 10 32) }

end Payload
end Signet
