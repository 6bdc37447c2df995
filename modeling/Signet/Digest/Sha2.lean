import Signet.Bytes
/-!
The SHA-2 digests. The two word sizes share one definition: they differ in their constants, in how
far their words are turned, and in where they start.
-/
namespace Signet.Sha2

/-- What fixes a family of digests over words of `w` bits. -/
structure Family (w : Nat) where
  -- one constant for each step
  constants : List (BitVec w)
  -- the turns of the two sums inside a step
  sum0 : Nat × Nat × Nat
  sum1 : Nat × Nat × Nat
  -- two turns and a shift for each of the two sums that extend the message
  extend0 : Nat × Nat × Nat
  extend1 : Nat × Nat × Nat

/-- The eight chaining words. -/
structure State (w : Nat) where
  a : BitVec w
  b : BitVec w
  c : BitVec w
  d : BitVec w
  e : BitVec w
  f : BitVec w
  g : BitVec w
  h : BitVec w
deriving DecidableEq

variable {w : Nat}

def turned (by3 : Nat × Nat × Nat) (x : BitVec w) : BitVec w :=
  x.rotateRight by3.1 ^^^ x.rotateRight by3.2.1 ^^^ x.rotateRight by3.2.2

/-- The word turned in two ways and shifted in a third, added without carry. -/
def spread (by3 : Nat × Nat × Nat) (x : BitVec w) : BitVec w :=
  x.rotateRight by3.1 ^^^ x.rotateRight by3.2.1 ^^^ (x >>> by3.2.2)

/-- The chaining words and the next sixteen message words. -/
structure Step (w : Nat) where
  state : State w
  window : List (BitVec w)

/-- Takes the first word of the window into the chaining words and extends the window by one. -/
def Family.step (family : Family w) (current : Step w) (constant : BitVec w) : Step w :=
  let s := current.state
  let word (i : Nat) := current.window.getD i 0
  let choice := (s.e &&& s.f) ^^^ (~~~s.e &&& s.g)
  let majority := (s.a &&& s.b) ^^^ (s.a &&& s.c) ^^^ (s.b &&& s.c)
  let first := s.h + turned family.sum1 s.e + choice + constant + word 0
  let second := turned family.sum0 s.a + majority
  let next := spread family.extend1 (word 14) + word 9 + spread family.extend0 (word 1) + word 0
  { state := ⟨first + second, s.a, s.b, s.c, s.d + first, s.e, s.f, s.g⟩
    window := current.window.drop 1 ++ [next] }

def Family.chain (family : Family w) (s : State w) (block : Bytes) : State w :=
  let words := (block.wholePieces (w / 8)).map fun b => BitVec.ofNat w (Bytes.ofBigEndian b)
  let t := (family.constants.foldl family.step ⟨s, words⟩).state
  ⟨s.a + t.a, s.b + t.b, s.c + t.c, s.d + t.d, s.e + t.e, s.f + t.f, s.g + t.g, s.h + t.h⟩

/-- The message, a byte with its top bit set, zeros, and the length of the message in bits in the
last two words of a block. -/
def padded (w : Nat) (message : Bytes) : Bytes :=
  -- sixteen words of `w / 8` bytes
  let block := 2 * w
  let zeros := (2 * block - w / 4 - 1 - message.length % block) % block
  message ++ 0x80 :: Bytes.zeros zeros ++ Bytes.bigEndian (w / 4) (8 * message.length)

def Family.digest (family : Family w) (initial : State w) (message : Bytes) : Bytes :=
  let s := ((padded w message).wholePieces (2 * w)).foldl family.chain initial
  [s.a, s.b, s.c, s.d, s.e, s.f, s.g, s.h].flatMap fun x => Bytes.bigEndian (w / 8) x.toNat

/-- The family over 32-bit words. Its constants are the fractions of the cube roots of the first
64 primes. -/
def family32 : Family 32 where
  constants :=
    [0x428a2f98, 0x71374491, 0xb5c0fbcf, 0xe9b5dba5, 0x3956c25b, 0x59f111f1, 0x923f82a4, 0xab1c5ed5,
     0xd807aa98, 0x12835b01, 0x243185be, 0x550c7dc3, 0x72be5d74, 0x80deb1fe, 0x9bdc06a7, 0xc19bf174,
     0xe49b69c1, 0xefbe4786, 0x0fc19dc6, 0x240ca1cc, 0x2de92c6f, 0x4a7484aa, 0x5cb0a9dc, 0x76f988da,
     0x983e5152, 0xa831c66d, 0xb00327c8, 0xbf597fc7, 0xc6e00bf3, 0xd5a79147, 0x06ca6351, 0x14292967,
     0x27b70a85, 0x2e1b2138, 0x4d2c6dfc, 0x53380d13, 0x650a7354, 0x766a0abb, 0x81c2c92e, 0x92722c85,
     0xa2bfe8a1, 0xa81a664b, 0xc24b8b70, 0xc76c51a3, 0xd192e819, 0xd6990624, 0xf40e3585, 0x106aa070,
     0x19a4c116, 0x1e376c08, 0x2748774c, 0x34b0bcb5, 0x391c0cb3, 0x4ed8aa4a, 0x5b9cca4f, 0x682e6ff3,
     0x748f82ee, 0x78a5636f, 0x84c87814, 0x8cc70208, 0x90befffa, 0xa4506ceb, 0xbef9a3f7, 0xc67178f2]
  sum0 := (2, 13, 22)
  sum1 := (6, 11, 25)
  extend0 := (7, 18, 3)
  extend1 := (17, 19, 10)

/-- The family over 64-bit words. Its constants are the fractions of the cube roots of the first
80 primes. -/
def family64 : Family 64 where
  constants :=
    [0x428a2f98d728ae22, 0x7137449123ef65cd, 0xb5c0fbcfec4d3b2f, 0xe9b5dba58189dbbc,
     0x3956c25bf348b538, 0x59f111f1b605d019, 0x923f82a4af194f9b, 0xab1c5ed5da6d8118,
     0xd807aa98a3030242, 0x12835b0145706fbe, 0x243185be4ee4b28c, 0x550c7dc3d5ffb4e2,
     0x72be5d74f27b896f, 0x80deb1fe3b1696b1, 0x9bdc06a725c71235, 0xc19bf174cf692694,
     0xe49b69c19ef14ad2, 0xefbe4786384f25e3, 0x0fc19dc68b8cd5b5, 0x240ca1cc77ac9c65,
     0x2de92c6f592b0275, 0x4a7484aa6ea6e483, 0x5cb0a9dcbd41fbd4, 0x76f988da831153b5,
     0x983e5152ee66dfab, 0xa831c66d2db43210, 0xb00327c898fb213f, 0xbf597fc7beef0ee4,
     0xc6e00bf33da88fc2, 0xd5a79147930aa725, 0x06ca6351e003826f, 0x142929670a0e6e70,
     0x27b70a8546d22ffc, 0x2e1b21385c26c926, 0x4d2c6dfc5ac42aed, 0x53380d139d95b3df,
     0x650a73548baf63de, 0x766a0abb3c77b2a8, 0x81c2c92e47edaee6, 0x92722c851482353b,
     0xa2bfe8a14cf10364, 0xa81a664bbc423001, 0xc24b8b70d0f89791, 0xc76c51a30654be30,
     0xd192e819d6ef5218, 0xd69906245565a910, 0xf40e35855771202a, 0x106aa07032bbd1b8,
     0x19a4c116b8d2d0c8, 0x1e376c085141ab53, 0x2748774cdf8eeb99, 0x34b0bcb5e19b48a8,
     0x391c0cb3c5c95a63, 0x4ed8aa4ae3418acb, 0x5b9cca4f7763e373, 0x682e6ff3d6b2b8a3,
     0x748f82ee5defb2fc, 0x78a5636f43172f60, 0x84c87814a1f0ab72, 0x8cc702081a6439ec,
     0x90befffa23631e28, 0xa4506cebde82bde9, 0xbef9a3f7b2c67915, 0xc67178f2e372532b,
     0xca273eceea26619c, 0xd186b8c721c0c207, 0xeada7dd6cde0eb1e, 0xf57d4f7fee6ed178,
     0x06f067aa72176fba, 0x0a637dc5a2c898a6, 0x113f9804bef90dae, 0x1b710b35131c471b,
     0x28db77f523047d84, 0x32caab7b40c72493, 0x3c9ebe0a15c9bebc, 0x431d67c49c100d4c,
     0x4cc5d4becb3e42b6, 0x597f299cfc657e2a, 0x5fcb6fab3ad6faec, 0x6c44198c4a475817]
  sum0 := (28, 34, 39)
  sum1 := (14, 18, 41)
  extend0 := (1, 8, 7)
  extend1 := (19, 61, 6)

/-- The 256-bit digest. It starts from the fractions of the square roots of the first 8 primes. -/
def sha256 (message : Bytes) : Bytes :=
  family32.digest
    ⟨0x6a09e667, 0xbb67ae85, 0x3c6ef372, 0xa54ff53a, 0x510e527f, 0x9b05688c, 0x1f83d9ab, 0x5be0cd19⟩ message

/-- The 224-bit digest: another start, and the last word left out. -/
def sha224 (message : Bytes) : Bytes :=
  (family32.digest
    ⟨0xc1059ed8, 0x367cd507, 0x3070dd17, 0xf70e5939, 0xffc00b31, 0x68581511, 0x64f98fa7, 0xbefa4fa4⟩ message).take 28

/-- The 512-bit digest. It starts from the fractions of the square roots of the first 8 primes. -/
def sha512 (message : Bytes) : Bytes :=
  family64.digest
    ⟨0x6a09e667f3bcc908, 0xbb67ae8584caa73b, 0x3c6ef372fe94f82b, 0xa54ff53a5f1d36f1,
      0x510e527fade682d1, 0x9b05688c2b3e6c1f, 0x1f83d9abfb41bd6b, 0x5be0cd19137e2179⟩ message

end Signet.Sha2
