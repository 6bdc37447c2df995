import Signet.Integer.Modular
import Signet.Key.Basic
/-!
The bare operations of a key pair on numbers below the modulus: a power with the public exponent,
and the power that undoes it, either at once or from its parts to the two prime moduli.
-/
namespace Signet

/-- Refuses a modulus without remainders to speak of, and then a number that is none of them. -/
def checkOperand (n m : Integer) : Except Error Unit := do
  require (!(n.isZero || n.isOne || n.isNegative)) .invalidParameter
  require (!m.isNegative && decide (m < n)) .malformed

namespace PublicKey

def e (k : PublicKey) : Integer := .ofUInt64 (UInt64.ofNat k.header.publicExponent)

def apply (k : PublicKey) (m : Integer) : Except Error Integer := do
  checkOperand k.n m
  return m.modPow k.e k.n

end PublicKey

namespace PrivateKey

def applyDirect (k : PrivateKey) (c : Integer) : Integer := c.modPow k.d k.n

/-- How often the modulus `p` has to be added until a difference is not negative. -/
def lifts (p difference : Integer) : Integer :=
  if difference.isNegative then -(difference / p) else 0

/-- The private operation from the two powers to the moduli `p` and `q`, which are put together by
a multiple of `q`. -/
def applySplit (k : PrivateKey) (c : Integer) : Integer :=
  let powerP := (c % k.p).modPow k.dp k.p
  let powerQ := (c % k.q).modPow k.dq k.q
  let difference := powerP - powerQ
  let lifted := difference + lifts k.p difference * k.p
  lifted * k.qInv % k.p * k.q + powerQ

/-- The private operation; a legacy key uses nothing but its exponent. -/
def apply (k : PrivateKey) (c : Integer) : Except Error Integer := do
  checkOperand k.n c
  match k.header.version with
  | .legacy => return k.applyDirect c
  | .current => return k.applySplit c

end PrivateKey

def Key.apply : Key → Integer → Except Error Integer
  | .pub k => k.apply
  | .priv k => k.apply

end Signet
