import Signet.Key.Operation
import Signet.Primality.Search
/-!
New key pairs from a seed. Each half of the seed leads to one prime, and the pair is tried out
before it is handed over. Nothing but the request and the seed decides the pair.
-/
namespace Signet

open scoped Powers

/-- What a new key pair is to be like: a current version, a modulus whose size is a power of two,
and a window that does not end before it begins. -/
structure KeyRequest where
  header : KeyHeader
  isCurrent : header.version = .current
  minKeyBits_le : minKeyBits ≤ header.bits.toNat
  isPowerOfTwo : header.bits.toNat = 2 ^ header.bits.toNat.log2
  create_le_expire : header.create ≤ header.expire
deriving DecidableEq

namespace KeyRequest

def ofParts (bits : UInt32) (id : UInt64) (name : Bytes) (create expire : Timestamp) :
    Except Error KeyRequest :=
  if h : (minKeyBits ≤ bits.toNat ∧ bits.toNat = 2 ^ bits.toNat.log2) ∧
      create.secs ≤ expire.secs ∧ name.length < Version.current.aliasSize then
    .ok
      { header := .ofAlias .current bits id create expire name h.2.2
        isCurrent := rfl
        minKeyBits_le := h.1.1
        isPowerOfTwo := h.1.2
        create_le_expire := h.2.1 }
  else .error .invalidParameter

def bits (r : KeyRequest) : Nat := r.header.bits.toNat

def seedLength (r : KeyRequest) : Nat := r.bits / 8

def describe (r : KeyRequest) : String :=
  "KeyGenParams \x7b header: " ++ r.header.describe ++ " \x7d"

end KeyRequest

namespace PrivateKey

/-- The size of the number that a new key is tried out with. -/
def selfTestBits : Nat := 504

/-- Passes a number from the seed through the public operation and back by both ways of the private
one. -/
def selfTest (k : PrivateKey) (seed : Bytes) : Monitored Unit :=
  .ask .selfTestBegin fun _ => do
    let x ← Monitored.ofExcept (Integer.load seed selfTestBits)
    let c ← Monitored.ofExcept (k.toPublic.apply x)
    if k.applyDirect c == x && k.applySplit c == x then
      .tell .selfTestEnd fun _ => pure ()
    else .ofExcept (.error .malformed)

/-- The private key of two primes, the first the larger. -/
def ofPrimes (header : KeyHeader) (p q : Integer) : Except Error PrivateKey := do
  let n := p * q
  let qInv ← q.modInverse p
  -- both primes are odd, so that without the lowest digit each is one less
  let p ← p.setBit 0 false
  let q ← q.setBit 0 false
  let d ← (Integer.ofUInt64 (UInt64.ofNat Primality.publicExponent)).modInverse (p * q)
  let dp := d % p
  let dq := d % q
  let p ← p.setBit 0 true
  let q ← q.setBit 0 true
  return { header, n, d, p, q, dp, dq, qInv }

end PrivateKey

namespace KeyRequest

/-- Makes a key pair from two primes, which must differ, and tries it out. -/
def fromPrimes (r : KeyRequest) (seed : Bytes) (a b : Integer) :
    Monitored (PublicKey × PrivateKey) := do
  if a = b then Monitored.ofExcept (.error .equalPrimes)
  else
    let (p, q) := if a < b then (b, a) else (a, b)
    let key ← Monitored.ofExcept (PrivateKey.ofPrimes r.header p q)
    key.selfTest seed
    return (key.toPublic, key)

def generate (r : KeyRequest) (seed : Bytes) : Monitored (PublicKey × PrivateKey) := do
  if seed.length < r.seedLength then Monitored.ofExcept (.error .invalidParameter)
  else
    -- each prime takes half of the digits, and half of the seed
    let half := r.bits / 16
    let a ← Primality.search (r.bits / 2) (seed.take half)
    let b ← Primality.search (r.bits / 2) (seed.drop half)
    r.fromPrimes seed a b

end KeyRequest
end Signet
