import Signet.Digest.Md5
/-!
A deterministic stream of bytes from a chain of digests. A pool of sixteen bytes is replaced by its
own digest for each sixteen bytes of output, and by the digest of the pool and a salt when a salt
is taken in. Nothing here depends on which digest it is.
-/
namespace Signet

/-- The pool of a chain over the digest `hash`. -/
structure HashChain (hash : Bytes → Block) where
  pool : Block

namespace HashChain

variable {hash : Bytes → Block}

def empty : HashChain hash := ⟨Vector.replicate 16 0⟩

/-- Takes a salt in; an empty salt changes nothing. -/
def absorb (c : HashChain hash) (salt : Bytes) : HashChain hash :=
  if salt.isEmpty then c else ⟨hash (c.pool.toList ++ salt)⟩

def ofSalt (salt : Bytes) : HashChain hash := empty.absorb salt

def step (c : HashChain hash) : HashChain hash := ⟨hash c.pool.toList⟩

/-- The pools after each of the next `count` steps, laid end to end, and the chain after them. -/
def blocks : Nat → HashChain hash → Bytes × HashChain hash
  | 0, c => ([], c)
  | count + 1, c =>
    let next := c.step
    let (rest, last) := blocks count next
    (next.pool.toList ++ rest, last)

/-- The next `length` bytes. What is left of the last pool is not used. -/
def fill (c : HashChain hash) (length : Nat) : Bytes × HashChain hash :=
  -- as many pools as hold `length` bytes
  let (bytes, last) := blocks ((length + 15) / 16) c
  (bytes.take length, last)

end HashChain

abbrev Md5Chain := HashChain Md5.digest

end Signet
