import Signet.Bytes
import Signet.Error
/-!
The CRC-32 checksum with reflected bits. A message is taken bit by bit, or a byte at a time
through a table whose entries are eight of those steps.
-/
namespace Signet.Crc32

/-- The polynomial with reflected bits, without its highest term. -/
def polynomial : UInt32 := 0xEDB88320

def stepBit (register : UInt32) : UInt32 :=
  if register &&& 1 = 0 then register >>> 1 else polynomial ^^^ (register >>> 1)

def stepBits (register : UInt32) : UInt32 := Nat.repeat stepBit 8 register

def table : Vector UInt32 256 := Vector.ofFn fun i => stepBits (UInt32.ofNat i)

def stepByte (register : UInt32) (b : UInt8) : UInt32 :=
  table.get ⟨(register.toUInt8 ^^^ b).toNat, UInt8.toNat_lt _⟩ ^^^ (register >>> 8)

def stepBitwise (register : UInt32) (b : UInt8) : UInt32 :=
  stepBits (register ^^^ b.toUInt32)

end Crc32

/-- A checksum that is being taken. -/
structure Crc32 where
  -- the remainder so far
  register : UInt32
deriving DecidableEq

namespace Crc32

def start : Crc32 := ⟨0xFFFFFFFF⟩

def update (c : Crc32) (bytes : Bytes) : Crc32 := ⟨bytes.foldl stepByte c.register⟩

def value (c : Crc32) : UInt32 := ~~~c.register

/-- What comes out when the message ends; there is nothing about a message to refuse. -/
def finish (c : Crc32) : Except Error UInt32 := .ok c.value

def ofBytes (bytes : Bytes) : UInt32 := (start.update bytes).value

/-- The checksum by the bitwise definition. -/
def bitwise (bytes : Bytes) : UInt32 := ~~~(bytes.foldl stepBitwise 0xFFFFFFFF)

end Signet.Crc32
