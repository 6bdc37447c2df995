import Signet.Bytes
/-!
The MD5 digest: sixteen bytes for a byte string of any length.
-/
namespace Signet

namespace Md5

/-- The four chaining words. -/
structure State where
  a : UInt32
  b : UInt32
  c : UInt32
  d : UInt32
deriving DecidableEq

def initial : State := ⟨0x67452301, 0xefcdab89, 0x98badcfe, 0x10325476⟩

/-- The integer parts of `2 ^ 32 * |sin i|` for `i` from 1 to 64. -/
def sines : List UInt32 :=
  [0xd76aa478, 0xe8c7b756, 0x242070db, 0xc1bdceee, 0xf57c0faf, 0x4787c62a, 0xa8304613, 0xfd469501,
   0x698098d8, 0x8b44f7af, 0xffff5bb1, 0x895cd7be, 0x6b901122, 0xfd987193, 0xa679438e, 0x49b40821,
   0xf61e2562, 0xc040b340, 0x265e5a51, 0xe9b6c7aa, 0xd62f105d, 0x02441453, 0xd8a1e681, 0xe7d3fbc8,
   0x21e1cde6, 0xc33707d6, 0xf4d50d87, 0x455a14ed, 0xa9e3e905, 0xfcefa3f8, 0x676f02d9, 0x8d2a4c8a,
   0xfffa3942, 0x8771f681, 0x6d9d6122, 0xfde5380c, 0xa4beea44, 0x4bdecfa9, 0xf6bb4b60, 0xbebfbc70,
   0x289b7ec6, 0xeaa127fa, 0xd4ef3085, 0x04881d05, 0xd9d4d039, 0xe6db99e5, 0x1fa27cf8, 0xc4ac5665,
   0xf4292244, 0x432aff97, 0xab9423a7, 0xfc93a039, 0x655b59c3, 0x8f0ccc92, 0xffeff47d, 0x85845dd1,
   0x6fa87e4f, 0xfe2ce6e0, 0xa3014314, 0x4e0811a1, 0xf7537e82, 0xbd3af235, 0x2ad7d2bb, 0xeb86d391]

/-- How far each step of a round turns its sum, for the four rounds. -/
def turns (round step : Nat) : UInt32 :=
  let row : List UInt32 :=
    match round with
    | 0 => [7, 12, 17, 22]
    | 1 => [5, 9, 14, 20]
    | 2 => [4, 11, 16, 23]
    | _ => [6, 10, 15, 21]
  row.getD (step % 4) 0

def rotateLeft (x count : UInt32) : UInt32 := (x <<< count) ||| (x >>> (32 - count))

/-- The mixing function of a round, and the message word that each of its steps takes. -/
def mixture (s : State) (round step : Nat) : UInt32 × Nat :=
  match round with
  | 0 => ((s.b &&& s.c) ||| (~~~s.b &&& s.d), step)
  | 1 => ((s.d &&& s.b) ||| (~~~s.d &&& s.c), (5 * step + 1) % 16)
  | 2 => (s.b ^^^ s.c ^^^ s.d, (3 * step + 5) % 16)
  | _ => (s.c ^^^ (s.b ||| ~~~s.d), (7 * step) % 16)

def step (words : List UInt32) (s : State) (sine : UInt32 × Nat) : State :=
  let round := sine.2 / 16
  let (mixed, index) := mixture s round sine.2
  let sum := s.a + mixed + sine.1 + words.getD index 0
  ⟨s.d, s.b + rotateLeft sum (turns round sine.2), s.b, s.c⟩

def chain (s : State) (block : Bytes) : State :=
  let words := (block.wholePieces 4).map fun w => UInt32.ofNat (Bytes.ofLittleEndian w)
  let t := sines.zipIdx.foldl (step words) s
  ⟨s.a + t.a, s.b + t.b, s.c + t.c, s.d + t.d⟩

/-- The message, a byte with its top bit set, zeros up to eight bytes short of a whole block, and
the length of the message in bits. -/
def padded (message : Bytes) : Bytes :=
  -- 119 = 2 * 64 - 8 - 1: one byte and the length field come in besides
  let zeros := (119 - message.length % 64) % 64
  message ++ 0x80 :: Bytes.zeros zeros ++ Bytes.littleEndian 8 (8 * message.length)

def digest (message : Bytes) : Block :=
  let s := ((padded message).wholePieces 64).foldl chain initial
  let bytes (w : UInt32) := Bytes.littleEndian 4 w.toNat
  ⟨(bytes s.a ++ bytes s.b ++ bytes s.c ++ bytes s.d).toArray, by simp [bytes]⟩

end Md5
end Signet
