import Signet.Integer.Octets
import Signet.Integer.Text
import Signet.Packet
import Signet.Timestamp
/-!
Signatures and their stored form. The fields beside the value are copies in the clear: nothing
vouches for them.
-/
namespace Signet

/-- What a signature asserts. -/
inductive Assertion where
  -- a message to the owner of the key, made with the public key
  | message
  -- a plain signature
  | sign
  -- the signer knows the owner of the key
  | known
  -- a weak check of the owner of the key
  | weak
  -- a strong check of the owner of the key
  | strong
  -- a statement of a time service
  | timestamp
  -- the key is revoked
  | revoke
deriving DecidableEq, Inhabited

namespace Assertion

def all : List Assertion := [message, sign, known, weak, strong, timestamp, revoke]

def code : Assertion → UInt8
  | message => 0x00
  | sign => 0x05
  | known => 0x06
  | weak => 0x09
  | strong => 0x0A
  | timestamp => 0x0F
  | revoke => 0xFF

def ofCode (code : UInt8) : Except Error Assertion :=
  match all.find? (fun a => a.code == code) with
  | some a => .ok a
  | none => .error .malformed

def name : Assertion → String
  | message => "Message"
  | sign => "Sign"
  | known => "Known"
  | weak => "Weak"
  | strong => "Strong"
  | timestamp => "Timestamp"
  | revoke => "Revoke"

def needsPrivateKey (a : Assertion) : Bool := a != message

end Assertion

/-- Whether a signature is meant for everyone who holds the public key. -/
inductive Sharing where
  | no
  | yes
deriving DecidableEq, Inhabited

namespace Sharing

def code : Sharing → UInt8
  | no => 0x33
  | yes => 0xCC

def ofCode (code : UInt8) : Except Error Sharing :=
  if code = 0x33 then .ok no
  else if code = 0xCC then .ok yes
  else .error .malformed

def name : Sharing → String
  | no => "No"
  | yes => "Yes"

end Sharing

/-- A signature. -/
structure Signature where
  version : Version
  -- the size of the modulus of the key that made it
  bits : UInt32
  -- the first second at which that key is valid
  create : Int64
  -- the number of that key
  id : UInt64
  -- the second at which it was made
  made : Int64
  assertion : Assertion
  sharing : Sharing
  -- the result of the operation of the key
  value : Integer
deriving DecidableEq

namespace Signature

def headerSize : Nat := 34

def createTime (s : Signature) : Timestamp := ⟨s.create, 0⟩

def madeTime (s : Signature) : Timestamp := ⟨s.made, 0⟩

def encodedLength (s : Signature) : Nat := headerSize + s.bits.toNat / 8

def encode (s : Signature) : Except Error Bytes := do
  let value ← s.value.toFixedBytes (s.bits.toNat / 8)
  return Bytes.bigEndian 2 PacketKind.signature.code ++ Bytes.bigEndian 2 s.version.number ++
    Bytes.bigEndian 4 s.bits.toNat ++ s.createTime.secsBytes ++ Bytes.bigEndian 8 s.id.toNat ++
    s.madeTime.secsBytes ++ [s.assertion.code, s.sharing.code] ++ value

/-- Reads a signature from the front of a byte string, with the number of bytes read. Too few bytes
are a bad argument, and everything else that is wrong is malformed. -/
def decode (bytes : Bytes) : Except Error (Signature × Nat) := do
  require (decide (headerSize ≤ bytes.length)) .invalidParameter
  let kind ← PacketKind.ofCode (Bytes.ofBigEndian (bytes.slice 0 2))
  require (kind == .signature) .malformed
  let bits := UInt32.ofNat (Bytes.ofBigEndian (bytes.slice 4 4))
  match Version.ofNumber? (Bytes.ofBigEndian (bytes.slice 2 2)) with
  | none => throw .malformed
  | some version =>
    require (decide (minKeyBits ≤ bits.toNat) && bits.toNat % 8 == 0) .malformed
    let assertion ← Assertion.ofCode (bytes.getD 32 0)
    let sharing ← Sharing.ofCode (bytes.getD 33 0)
    let total := headerSize + bits.toNat / 8
    require (decide (total ≤ bytes.length)) .invalidParameter
    let value ← Integer.load (bytes.slice headerSize (bits.toNat / 8)) bits.toNat
    return (
      { version, bits, assertion, sharing, value
        create := (Timestamp.ofSecsBytes (bytes.slice 8 8)).secs
        id := UInt64.ofNat (Bytes.ofBigEndian (bytes.slice 16 8))
        made := (Timestamp.ofSecsBytes (bytes.slice 24 8)).secs },
      total)

def describe (s : Signature) : String :=
  "Signature \x7b version: " ++ toString s.version.number ++
    ", bits: " ++ toString s.bits.toNat ++
    ", create: " ++ s.createTime.describe ++
    ", id: " ++ toString s.id.toNat ++
    ", timestamp: " ++ s.madeTime.describe ++
    ", sig_type: " ++ s.assertion.name ++
    ", shared: " ++ s.sharing.name ++
    ", sig: " ++ s.value.describe ++ " \x7d"

end Signature
end Signet
