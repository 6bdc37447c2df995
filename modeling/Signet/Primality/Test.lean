import Signet.HashChain
import Signet.Integer.Modular
import Signet.Integer.Octets
import Signet.Progress
/-!
The strong probable prime test on witnesses that the tested number itself fixes: they are drawn
from a chain of digests salted with it, so that a number is always judged in the same way.
-/
namespace Signet

def Magnitude.toWordBytes : Magnitude → Bytes
  | zero => []
  | word low high => Bytes.littleEndian 8 low.toNat ++ toWordBytes high

namespace Primality

/-- A request for fewer rounds than this leaves their number to the size of the candidate. -/
def minExplicitRounds : Nat := 5

/-- How many rounds a candidate of so many binary digits takes; small ones take more. -/
def roundsFor (bits : Nat) : Nat :=
  if bits ≥ 512 then 5
  else if bits ≥ 450 then 6
  else if bits ≥ 400 then 7
  else if bits ≥ 350 then 8
  else if bits ≥ 300 then 9
  else if bits ≥ 250 then 12
  else if bits ≥ 200 then 15
  else if bits ≥ 150 then 18
  else 27

def effectiveRounds (requested bits : Nat) : Nat :=
  if requested < minExplicitRounds then roundsFor bits else requested

/-- How often two divides the number, at most `count` times, and what is left. -/
def splitTwos : Nat → Integer → Nat × Integer
  | 0, m => (0, m)
  | count + 1, m =>
    if m.isEven then
      let (twos, odd) := splitTwos count m.halve
      (twos + 1, odd)
    else (0, m)

/-- A number of `bits - 1` binary digits from the bytes drawn for it: the digits from `bits - 1`
on are cleared and the digit below them is set. -/
def witness (bits : Nat) (bytes : Bytes) : Integer :=
  let drawn := (Integer.ofBytes bytes).magnitude
  let high := List.range' (bits - 1) (8 * bytes.length - (bits - 1))
  .ofMagnitude false ((high.foldl Magnitude.clearBit drawn).setBit (bits - 2))

/-- Whether `count` values, each the square of the one before, have minus one among them. -/
def squaresReach (p minusOne : Integer) : Nat → Integer → Bool
  | 0, _ => false
  | count + 1, z => z == minusOne || squaresReach p minusOne count (z * z % p)

/-- What the rounds share: the candidate, and `p - 1 = 2 ^ twos * odd`. -/
structure Candidate where
  p : Integer
  minusOne : Integer
  twos : Nat
  odd : Integer

def Candidate.of (p : Integer) : Candidate :=
  let minusOne := p - 1
  let (twos, odd) := splitTwos minusOne.bits minusOne
  { p, minusOne, twos, odd }

/-- Whether a base gives the candidate away as composite no more than a prime would be: its power
is one, or minus one is among the squares of its power. -/
def Candidate.passes (c : Candidate) (base : Integer) : Bool :=
  let z := base.modPow c.odd c.p
  z.isOne || squaresReach c.p c.minusOne c.twos z

def Candidate.rounds {hash : Bytes → Block} (c : Candidate) :
    Nat → Nat → HashChain hash → Monitored Bool
  | 0, _, _ => pure true
  | count + 1, index, chain => .ask (.round index) fun _ =>
    let bits := c.p.bits
    -- every round draws its own whole pools from the chain
    let (bytes, next) := chain.fill ((bits + 7) / 8)
    if c.passes (witness bits bytes) then c.rounds count (index + 1) next else pure false

def testWith (hash : Bytes → Block) (p : Integer) (requested : Nat) : Monitored Bool :=
  if p.isNegative || p.isEven || p.isOne then pure false
  else
    let chain : HashChain hash := .ofSalt p.magnitude.toWordBytes
    (Candidate.of p).rounds (effectiveRounds requested p.bits) 0 chain

def test (p : Integer) (requested : Nat) : Monitored Bool := testWith Md5.digest p requested

/-- The verdict under an observer, where a test that was stopped counts as failed. -/
def isProbablyPrimeUnder {σ : Type} (observer : Observer σ) (p : Integer) (requested : Nat)
    (s : σ) : Bool × σ :=
  match (test p requested).run observer s with
  | (.ok verdict, s) => (verdict, s)
  | (.error _, s) => (false, s)

def isProbablyPrime (p : Integer) (requested : Nat) : Bool :=
  (isProbablyPrimeUnder (fun _ _ => (false, ())) p requested ()).1

end Primality
end Signet
