import Signet.Integer.Arithmetic
import Signet.Integer.Text
import Signet.Key.Header
/-!
Public and private keys. A private key is sound when its numbers stand in the relations that the
private operation relies on.
-/
namespace Signet

/-- The half of a key pair that everyone may know. -/
structure PublicKey where
  header : KeyHeader
  -- the modulus
  n : Integer
deriving DecidableEq

/-- The half of a key pair that its owner keeps. -/
structure PrivateKey where
  header : KeyHeader
  -- the modulus, the product of the two primes
  n : Integer
  -- the private exponent
  d : Integer
  -- the larger prime
  p : Integer
  -- the smaller prime
  q : Integer
  -- the private exponent to the modulus `p - 1`
  dp : Integer
  -- the private exponent to the modulus `q - 1`
  dq : Integer
  -- the inverse of `q` to the modulus `p`
  qInv : Integer
deriving DecidableEq

/-- Either half of a key pair. -/
inductive Key where
  | pub (key : PublicKey)
  | priv (key : PrivateKey)
deriving DecidableEq

/-- Whether a modulus is odd, not negative, and no wider than its header says. -/
def KeyHeader.allowsModulus (h : KeyHeader) (n : Integer) : Bool :=
  decide (minKeyBits ≤ h.bits.toNat) && !n.isNegative && n.isOdd && decide (n.bits ≤ h.bits.toNat)

namespace PublicKey

def ofParts (header : KeyHeader) (n : Integer) : Except Error PublicKey := do
  require (header.allowsModulus n) .invalidParameter
  return { header, n }

def describe (k : PublicKey) : String :=
  "PublicKey \x7b header: " ++ k.header.describe ++ ", n: " ++ k.n.describe ++ " \x7d"

end PublicKey

namespace PrivateKey

def e (k : PrivateKey) : Integer := .ofUInt64 (UInt64.ofNat k.header.publicExponent)

/-- Whether the modulus is the product of two factors, the first the larger. -/
def hasFactors (k : PrivateKey) : Bool :=
  !k.q.isZero && decide (k.q < k.p) && k.n == k.p * k.q

/-- Whether the two exponents undo each other to the modulus `prime - 1`. -/
def invertsBelow (k : PrivateKey) (prime : Integer) : Bool :=
  (k.e * k.d % (prime - 1)).isOne

/-- Whether the values that speed up the private operation belong to the other numbers. -/
def hasReducedExponents (k : PrivateKey) : Bool :=
  k.dp == k.d % (k.p - 1) && k.dq == k.d % (k.q - 1) && (k.qInv * k.q % k.p).isOne

/-- Whether the numbers of the key belong together. The stored values that speed up the private
operation are not looked at in a legacy key, which does not use them. -/
def isSound (k : PrivateKey) : Bool :=
  k.header.allowsModulus k.n && k.hasFactors && k.invertsBelow k.p && k.invertsBelow k.q &&
    (k.header.version == .legacy || k.hasReducedExponents)

def validate (k : PrivateKey) : Except Error Unit := require k.isSound .invalidParameter

def ofParts (header : KeyHeader) (n d p q dp dq qInv : Integer) : Except Error PrivateKey := do
  let key : PrivateKey := { header, n, d, p, q, dp, dq, qInv }
  key.validate
  return key

def toPublic (k : PrivateKey) : PublicKey := { header := k.header, n := k.n }

/-- The key with all its secrets replaced by zero. -/
def erase (k : PrivateKey) : PrivateKey :=
  { k with d := 0, p := 0, q := 0, dp := 0, dq := 0, qInv := 0 }

def describe (k : PrivateKey) : String :=
  "PrivateKey \x7b header: " ++ k.header.describe ++ ", n: " ++ k.n.describe ++ ", .. \x7d"

end PrivateKey

namespace Key

def header : Key → KeyHeader
  | pub k => k.header
  | priv k => k.header

def n : Key → Integer
  | pub k => k.n
  | priv k => k.n

def isPrivate : Key → Bool
  | pub _ => false
  | priv _ => true

def toPublic : Key → PublicKey
  | pub k => k
  | priv k => k.toPublic

def describe : Key → String
  | pub k => "Public(" ++ k.describe ++ ")"
  | priv k => "Private(" ++ k.describe ++ ")"

end Key
end Signet
