import Signet.Key.Operation
import Signet.Signature.Basic
import Signet.Signature.Payload
/-!
Making signatures with one half of a key pair and opening them with the other. Every assertion but a
message is made with the private key; a message is made with the public key and opened with the
private one.
-/
namespace Signet

/-- What stands inside a signature. -/
structure Opened where
  hash : Digest
  time : Timestamp
  assertion : Assertion
  sharing : Sharing
deriving DecidableEq

namespace Signature

/-- Makes a signature over a digest. The clock reading `now` and the stated time must both lie in
the validity window of the key. -/
def make (hash : Digest) (time : Timestamp) (assertion : Assertion) (sharing : Sharing) (key : Key)
    (now : Timestamp) : Except Error Signature := do
  let header := key.header
  require (decide (minKeyBits ≤ header.bits.toNat)) .invalidParameter
  require (key.isPrivate == assertion.needsPrivateKey) .keyMismatch
  require (header.isValidAt now && header.isValidAt time) .expired
  let payload : Payload :=
    { time, hash, assertion := assertion.code, sharing := sharing.code }
  let m ← payload.toMessage header.bits.toNat
  let value ← key.apply m
  return {
    version := .current
    bits := header.bits
    create := header.create
    id := header.id
    made := time.secs
    assertion, sharing, value }

def names (s : Signature) (header : KeyHeader) : Bool :=
  s.id == header.id && s.create == header.create && s.bits == header.bits

/-- The fields inside a signature; whatever goes wrong on the way, the signature is malformed. -/
def payload (s : Signature) (key : Key) : Except Error Payload :=
  match key.apply s.value >>= fun m => Payload.ofMessage m key.header.bits.toNat with
  | .ok p => .ok p
  | .error _ => .error .malformed

/-- Opens a signature with the other half of the key pair that made it. -/
def reveal (s : Signature) (key : Key) : Except Error Opened := do
  let header := key.header
  require (decide (minKeyBits ≤ header.bits.toNat)) .invalidParameter
  require (key.isPrivate != s.assertion.needsPrivateKey) .keyMismatch
  require (s.names header) .malformed
  let inside ← s.payload key
  -- only what stands inside counts from here on
  require (header.isValidAt inside.time) .malformed
  let assertion ← Assertion.ofCode inside.assertion
  let sharing ← Sharing.ofCode inside.sharing
  return { hash := inside.hash, time := inside.time, assertion, sharing }

def verify (s : Signature) (key : Key) (expected : Digest) : Except Error Opened := do
  let opened ← s.reveal key
  require (opened.hash == expected) .hashMismatch
  return opened

end Signature
end Signet
