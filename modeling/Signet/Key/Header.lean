import Signet.Bytes
import Signet.Packet
import Signet.Text
import Signet.Timestamp
/-!
What a public key and its private key have in common: size, number, validity window and alias.
The stored form has a fixed layout, and reading it refuses every other form.
-/
namespace Signet

/-- The data that both halves of a key pair carry. -/
structure KeyHeader where
  version : Version
  -- the size of the modulus in binary digits
  bits : UInt32
  -- the number of the key
  id : UInt64
  -- the first second at which the key is valid
  create : Int64
  -- the last second at which the key is valid
  expire : Int64
  -- the alias field, filled up with zero bytes
  aliasField : Bytes
  length_aliasField : aliasField.length = version.aliasSize
deriving DecidableEq

namespace KeyHeader

/-- A header whose alias leaves room for a zero byte behind it. The times lose their fractions. -/
def ofAlias (version : Version) (bits : UInt32) (id : UInt64) (create expire : Timestamp)
    (name : Bytes) (h : name.length < version.aliasSize) : KeyHeader :=
  { version, bits, id
    create := create.secs
    expire := expire.secs
    aliasField := name ++ Bytes.zeros (version.aliasSize - name.length)
    length_aliasField := Bytes.length_append_zeros (Nat.le_of_lt h) }

/-- A header from its parts, refused when there is no such version or no room for the alias. -/
def ofParts (version : Nat) (bits : UInt32) (id : UInt64) (create expire : Timestamp)
    (name : Bytes) : Except Error KeyHeader :=
  match Version.ofNumber? version with
  | none => .error .invalidParameter
  | some version =>
    if h : name.length < version.aliasSize then
      .ok (ofAlias version bits id create expire name h)
    else .error .invalidParameter

def createTime (h : KeyHeader) : Timestamp := ⟨h.create, 0⟩

def expireTime (h : KeyHeader) : Timestamp := ⟨h.expire, 0⟩

/-- The bytes of the alias field before its first zero byte. -/
def aliasBytes (h : KeyHeader) : Bytes := h.aliasField.takeWhile (· != 0)

def aliasText? (h : KeyHeader) : Option String :=
  String.fromUTF8? (ByteArray.mk h.aliasBytes.toArray)

/-- Whether a moment lies in the validity window, in whole seconds. -/
def isValidAt (h : KeyHeader) (t : Timestamp) : Bool :=
  decide (h.create ≤ t.secs) && decide (t.secs ≤ h.expire)

def publicExponent (h : KeyHeader) : Nat := h.version.publicExponent

def encodedLength (h : KeyHeader) : Nat := h.version.headerSize

/-- The size of the modulus in units of sixteen binary digits, which sets the size of every stored
number of the key. -/
def unit (h : KeyHeader) : Nat := h.bits.toNat / 16

def encode (kind : PacketKind) (h : KeyHeader) : Bytes :=
  Bytes.bigEndian 2 kind.code ++ Bytes.bigEndian 2 h.version.number ++
    Bytes.bigEndian 4 h.bits.toNat ++ h.createTime.secsBytes ++ Bytes.bigEndian 8 h.id.toNat ++
    h.expireTime.secsBytes ++ h.aliasField

def decode (bytes : Bytes) : Except Error (PacketKind × KeyHeader) := do
  require (decide (8 ≤ bytes.length)) .malformed
  let kind ← PacketKind.ofCode (Bytes.ofBigEndian (bytes.slice 0 2))
  let bits := UInt32.ofNat (Bytes.ofBigEndian (bytes.slice 4 4))
  match Version.ofNumber? (Bytes.ofBigEndian (bytes.slice 2 2)) with
  | none => throw .malformed
  | some version =>
    require (kind != .signature) .malformed
    require (decide (minKeyBits ≤ bits.toNat) && bits.toNat % 16 == 0) .malformed
    let aliasField := bytes.slice 32 version.aliasSize
    if h : aliasField.length = version.aliasSize then
      return (kind,
        { version, bits, aliasField
          id := UInt64.ofNat (Bytes.ofBigEndian (bytes.slice 16 8))
          create := (Timestamp.ofSecsBytes (bytes.slice 8 8)).secs
          expire := (Timestamp.ofSecsBytes (bytes.slice 24 8)).secs
          length_aliasField := h })
    else throw .malformed

def describe (h : KeyHeader) : String :=
  "KeyHeader \x7b version: " ++ toString h.version.number ++
    ", bits: " ++ toString h.bits.toNat ++
    ", id: 0x" ++ (Bytes.bigEndian 8 h.id.toNat).toHex ++
    ", create: " ++ h.createTime.describe ++
    ", expire: " ++ h.expireTime.describe ++
    ", alias: " ++ Text.quote (h.aliasText?.getD "<binary>") ++ " \x7d"

end KeyHeader
end Signet
