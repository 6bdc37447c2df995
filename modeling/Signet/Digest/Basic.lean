import Signet.Digest.Sha2
/-!
Digests of 32 bytes, as keys and signatures hold them. A shorter digest stands at the front and is
filled up with zeros, and a longer one is cut.
-/
namespace Signet

/-- A digest in 32 bytes. -/
structure Digest where
  bytes : Vector UInt8 32
deriving DecidableEq

namespace Digest

theorem size_filled (bytes : Bytes) :
    (bytes.take 32 ++ Bytes.zeros (32 - bytes.length)).toArray.size = 32 := by
  rw [List.size_toArray, List.length_append, List.length_take, Bytes.length_zeros]
  omega

/-- The first 32 bytes, filled up with zeros. -/
def ofBytes (bytes : Bytes) : Digest :=
  ⟨(bytes.take 32 ++ Bytes.zeros (32 - bytes.length)).toArray, size_filled bytes⟩

def toBytes (d : Digest) : Bytes := d.bytes.toList

def zero : Digest := ⟨Vector.replicate 32 0⟩

instance : Inhabited Digest := ⟨zero⟩

def sha256 (message : Bytes) : Digest := ofBytes (Sha2.sha256 message)

def ofPassphrase (passphrase : Bytes) : Digest := sha256 passphrase

def toHex (d : Digest) : String := d.toBytes.toHex

def describe (d : Digest) : String := "Hash32(" ++ d.toHex ++ ")"

end Digest
end Signet
