import Signet.Primality.Test
/-!
The search for a prime of a given size from a seed. The search walks upward from the seed in steps
of two, leaves out numbers that a sieve of small primes rejects, and tests the others. It depends on
nothing but the seed.
-/
namespace Signet.Primality

/-- The public exponent of new keys. No prime found is one above a multiple of it, so that it can
be inverted modulo `p - 1`. -/
def publicExponent : Nat := 65537

/-- The odd primes below 2000. -/
def smallPrimes : List Nat :=
  [3, 5, 7, 11, 13, 17, 19, 23, 29, 31, 37, 41, 43, 47, 53, 59, 61, 67, 71, 73, 79, 83, 89, 97,
   101, 103, 107, 109, 113, 127, 131, 137, 139, 149, 151, 157, 163, 167, 173, 179, 181, 191, 193,
   197, 199, 211, 223, 227, 229, 233, 239, 241, 251, 257, 263, 269, 271, 277, 281, 283, 293, 307,
   311, 313, 317, 331, 337, 347, 349, 353, 359, 367, 373, 379, 383, 389, 397, 401, 409, 419, 421,
   431, 433, 439, 443, 449, 457, 461, 463, 467, 479, 487, 491, 499, 503, 509, 521, 523, 541, 547,
   557, 563, 569, 571, 577, 587, 593, 599, 601, 607, 613, 617, 619, 631, 641, 643, 647, 653, 659,
   661, 673, 677, 683, 691, 701, 709, 719, 727, 733, 739, 743, 751, 757, 761, 769, 773, 787, 797,
   809, 811, 821, 823, 827, 829, 839, 853, 857, 859, 863, 877, 881, 883, 887, 907, 911, 919, 929,
   937, 941, 947, 953, 967, 971, 977, 983, 991, 997, 1009, 1013, 1019, 1021, 1031, 1033, 1039,
   1049, 1051, 1061, 1063, 1069, 1087, 1091, 1093, 1097, 1103, 1109, 1117, 1123, 1129, 1151, 1153,
   1163, 1171, 1181, 1187, 1193, 1201, 1213, 1217, 1223, 1229, 1231, 1237, 1249, 1259, 1277, 1279,
   1283, 1289, 1291, 1297, 1301, 1303, 1307, 1319, 1321, 1327, 1361, 1367, 1373, 1381, 1399, 1409,
   1423, 1427, 1429, 1433, 1439, 1447, 1451, 1453, 1459, 1471, 1481, 1483, 1487, 1489, 1493, 1499,
   1511, 1523, 1531, 1543, 1549, 1553, 1559, 1567, 1571, 1579, 1583, 1597, 1601, 1607, 1609, 1613,
   1619, 1621, 1627, 1637, 1657, 1663, 1667, 1669, 1693, 1697, 1699, 1709, 1721, 1723, 1733, 1741,
   1747, 1753, 1759, 1777, 1783, 1787, 1789, 1801, 1811, 1823, 1831, 1847, 1861, 1867, 1871, 1873,
   1877, 1879, 1889, 1901, 1907, 1913, 1931, 1933, 1949, 1951, 1973, 1979, 1987, 1993, 1997, 1999]

def minPrimeBits : Nat := 256

/-- How far behind its start the walk may look. -/
def maxStep : Nat := 0x7FFF0000

/-- A modulus of the sieve and the remainder that the start of the walk leaves. -/
structure Residue where
  modulus : Nat
  residue : Nat

/-- The remainders of the start by the small primes; by the public exponent it is the number below
the start that counts. -/
def residues (start : Integer) : List Residue :=
  -- adding `e - 1` takes one off to the modulus `e`
  let e := publicExponent
  { modulus := e, residue := (start.magnitude.modSmall e + (e - 1)) % e } ::
    smallPrimes.map fun q => { modulus := q, residue := start.magnitude.modSmall q }

/-- Whether no modulus divides the number at this offset from the start. -/
def sievePasses (sieve : List Residue) (offset : Nat) : Bool :=
  sieve.all fun r => (r.residue + offset) % r.modulus != 0

/-- The next offset that the sieve passes. An offset behind the last allowed one is not looked for,
though the walk may start its look there. -/
def nextOffset (sieve : List Residue) : Nat → Nat → Option Nat
  | 0, _ => none
  | count + 1, offset =>
    if sievePasses sieve offset then some offset
    else if offset + 2 > maxStep then none
    else nextOffset sieve count (offset + 2)

/-- Where the walk stands. -/
structure Walk where
  -- the number tested last, at first the start
  candidate : Integer
  -- how far behind the start that number is
  base : Nat
  -- the next offset to look at
  offset : Nat

def walkLength : Nat := maxStep / 2 + 4

def walk (verdict : Integer → Monitored Bool) (sieve : List Residue) (bits : Nat) :
    Nat → Walk → Monitored Integer
  | 0, _ => .done (.error .searchExhausted)
  | count + 1, w => .ask (.sieve (w.offset / 2)) fun _ =>
    match nextOffset sieve walkLength w.offset with
    | none => .done (.error .searchExhausted)
    | some offset =>
      let candidate := w.candidate + .ofUInt64 (UInt64.ofNat (offset - w.base))
      -- the numbers of this size are used up
      if candidate.bits != bits then .done (.error .searchExhausted)
      else do
        if ← verdict candidate then .tell .primeFound fun _ => pure candidate
        else walk verdict sieve bits count { candidate, base := offset, offset := offset + 2 }

/-- The number that the walk starts from: the seed read as a number of `bits` binary digits, with
its highest and its lowest digit set. -/
def searchStart (bits : Nat) (seed : Bytes) : Except Error Integer := do
  if bits < minPrimeBits || bits % 8 ≠ 0 || seed.length < bits / 8 then
    throw .invalidParameter
  let start ← Integer.load (seed.take (bits / 8)) bits
  let start ← start.setBit (bits - 1) true
  start.setBit 0 true

/-- The first number from the seed on that the sieve and `verdict` accept. -/
def searchWith (verdict : Integer → Monitored Bool) (bits : Nat) (seed : Bytes) :
    Monitored Integer := do
  let start ← Monitored.ofExcept (searchStart bits seed)
  walk verdict (residues start) bits walkLength { candidate := start, base := 0, offset := 0 }

def search (bits : Nat) (seed : Bytes) : Monitored Integer :=
  searchWith (fun p => test p 0) bits seed

end Signet.Primality
