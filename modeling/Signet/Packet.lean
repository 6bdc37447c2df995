import Signet.Error
/-!
The kinds of stored packets and the codes that lead them, and the two versions of their layout.
-/
namespace Signet

/-- What a stored packet holds. -/
inductive PacketKind where
  | publicKey
  | privateKey
  | signature
deriving DecidableEq, Inhabited

namespace PacketKind

def code : PacketKind → Nat
  | publicKey => 0x0005
  | privateKey => 0x000A
  | signature => 0x0050

def ofCode (n : Nat) : Except Error PacketKind :=
  if n = 0x0005 then .ok publicKey
  else if n = 0x000A then .ok privateKey
  else if n = 0x0050 then .ok signature
  else .error .malformed

end PacketKind

/-- The version of a layout. -/
inductive Version where
  -- version 0: a short alias, a small public exponent, and no trust in the stored values that
  -- speed up the private operation
  | legacy
  -- version 1, which is written for new keys and signatures
  | current
deriving DecidableEq, Inhabited

namespace Version

def number : Version → Nat
  | legacy => 0
  | current => 1

def ofNumber? : Nat → Option Version
  | 0 => some legacy
  | 1 => some current
  | _ => none

def aliasSize : Version → Nat
  | legacy => 16
  | current => 32

def headerSize (v : Version) : Nat := 32 + v.aliasSize

def publicExponent : Version → Nat
  | legacy => 17
  | current => 65537

end Version

/-- The smallest modulus that keys may have, in binary digits. -/
def minKeyBits : Nat := 512

end Signet
