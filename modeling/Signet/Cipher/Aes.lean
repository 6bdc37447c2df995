import Signet.Bytes
/-!
The AES block cipher with keys of 32 bytes. Each layer of a round stands beside the layer that
undoes it, and deciphering runs the rounds backwards.
-/
namespace Signet.Aes

/-- The product with the byte 2 in the field of 256 elements. -/
def double (b : UInt8) : UInt8 :=
  if b &&& 0x80 = 0 then b <<< 1 else (b <<< 1) ^^^ 0x1B

/-- The product of two bytes in the field: `count` bits of the first are used, lowest first. -/
def productUp : Nat → UInt8 → UInt8 → UInt8
  | 0, _, _ => 0
  | count + 1, a, b =>
    (if a &&& 1 = 0 then 0 else b) ^^^ productUp count (a >>> 1) (double b)

def product (a b : UInt8) : UInt8 := productUp 8 a b

/-- The inverse of a byte in the field, which is its power 254; zero goes to zero. -/
def inverse (b : UInt8) : UInt8 :=
  -- 254 = 240 + 12 + 2
  let b2 := product b b
  let b3 := product b2 b
  let b12 := Nat.repeat (fun x => product x x) 2 b3
  let b15 := product b12 b3
  let b240 := Nat.repeat (fun x => product x x) 4 b15
  product (product b240 b12) b2

def turn (b : UInt8) (count : UInt8) : UInt8 := (b <<< count) ||| (b >>> (8 - count))

/-- The substitution of a byte: its inverse, turned five ways and added to a constant. -/
def substitution (b : UInt8) : UInt8 :=
  let x := inverse b
  x ^^^ turn x 1 ^^^ turn x 2 ^^^ turn x 3 ^^^ turn x 4 ^^^ 0x63

def desubstitution (b : UInt8) : UInt8 :=
  inverse (turn b 1 ^^^ turn b 3 ^^^ turn b 6 ^^^ 0x05)

def substitutions : Vector UInt8 256 := Vector.ofFn fun i => substitution (UInt8.ofNat i)

def desubstitutions : Vector UInt8 256 := Vector.ofFn fun i => desubstitution (UInt8.ofNat i)

def substitute (b : UInt8) : UInt8 := substitutions.get ⟨b.toNat, b.toNat_lt⟩

def desubstitute (b : UInt8) : UInt8 := desubstitutions.get ⟨b.toNat, b.toNat_lt⟩

/-- Four bytes that stand in one column of a block. -/
structure Column where
  b0 : UInt8
  b1 : UInt8
  b2 : UInt8
  b3 : UInt8
deriving DecidableEq

namespace Column

def map (f : UInt8 → UInt8) (c : Column) : Column := ⟨f c.b0, f c.b1, f c.b2, f c.b3⟩

def add (c d : Column) : Column :=
  ⟨c.b0 ^^^ d.b0, c.b1 ^^^ d.b1, c.b2 ^^^ d.b2, c.b3 ^^^ d.b3⟩

/-- The product with the cyclic matrix whose first row is given. -/
def times (m0 m1 m2 m3 : UInt8) (c : Column) : Column :=
  let row (x0 x1 x2 x3 : UInt8) : UInt8 :=
    product m0 x0 ^^^ product m1 x1 ^^^ product m2 x2 ^^^ product m3 x3
  ⟨row c.b0 c.b1 c.b2 c.b3, row c.b1 c.b2 c.b3 c.b0, row c.b2 c.b3 c.b0 c.b1,
    row c.b3 c.b0 c.b1 c.b2⟩

def mix : Column → Column := times 2 3 1 1

def unmix : Column → Column := times 14 11 13 9

def toBytes (c : Column) : Bytes := [c.b0, c.b1, c.b2, c.b3]

def rotate (c : Column) : Column := ⟨c.b1, c.b2, c.b3, c.b0⟩

end Column

/-- The four columns of a block. -/
structure State where
  c0 : Column
  c1 : Column
  c2 : Column
  c3 : Column
deriving DecidableEq

namespace State

def map (f : Column → Column) (s : State) : State := ⟨f s.c0, f s.c1, f s.c2, f s.c3⟩

def add (s k : State) : State :=
  ⟨s.c0.add k.c0, s.c1.add k.c1, s.c2.add k.c2, s.c3.add k.c3⟩

/-- Moves the row of bytes number `i` by `i` columns to the left. -/
def shiftRows (s : State) : State :=
  ⟨⟨s.c0.b0, s.c1.b1, s.c2.b2, s.c3.b3⟩, ⟨s.c1.b0, s.c2.b1, s.c3.b2, s.c0.b3⟩,
    ⟨s.c2.b0, s.c3.b1, s.c0.b2, s.c1.b3⟩, ⟨s.c3.b0, s.c0.b1, s.c1.b2, s.c2.b3⟩⟩

def unshiftRows (s : State) : State :=
  ⟨⟨s.c0.b0, s.c3.b1, s.c2.b2, s.c1.b3⟩, ⟨s.c1.b0, s.c0.b1, s.c3.b2, s.c2.b3⟩,
    ⟨s.c2.b0, s.c1.b1, s.c0.b2, s.c3.b3⟩, ⟨s.c3.b0, s.c2.b1, s.c1.b2, s.c0.b3⟩⟩

/-- The layers of a round before the key: substitution, then rows. -/
def confuse (s : State) : State := (s.map (Column.map substitute)).shiftRows

def deconfuse (s : State) : State := s.unshiftRows.map (Column.map desubstitute)

def toBlock (s : State) : Block :=
  ⟨(s.c0.toBytes ++ s.c1.toBytes ++ s.c2.toBytes ++ s.c3.toBytes).toArray, rfl⟩

def ofBlock (b : Block) : State :=
  ⟨⟨b[0], b[1], b[2], b[3]⟩, ⟨b[4], b[5], b[6], b[7]⟩, ⟨b[8], b[9], b[10], b[11]⟩,
    ⟨b[12], b[13], b[14], b[15]⟩⟩

end State

/-- Eight columns of key material: two round keys. -/
structure KeyPair where
  first : State
  second : State

/-- The round key whose columns are the running sums of the columns of `s` from `start` on. -/
def runningSums (start : Column) (s : State) : State :=
  let c0 := s.c0.add start
  let c1 := s.c1.add c0
  let c2 := s.c2.add c1
  ⟨c0, c1, c2, s.c3.add c2⟩

def KeyPair.next (k : KeyPair) (constant : UInt8) : KeyPair :=
  let seed := ((k.second.c3.rotate).map substitute).add ⟨constant, 0, 0, 0⟩
  let first := runningSums seed k.first
  ⟨first, runningSums (first.c3.map substitute) k.second⟩

/-- The round keys from a pair on, one more pair for each constant. -/
def KeyPair.schedule (k : KeyPair) : List UInt8 → List State
  | [] => [k.first]
  | constant :: rest => k.first :: k.second :: (k.next constant).schedule rest

def roundKeys (key : Vector UInt8 32) : List State :=
  let half (i : Nat) (h : i ≤ 16) : State := .ofBlock (Vector.ofFn fun j => key[i + j])
  KeyPair.schedule ⟨half 0 (by omega), half 16 (by omega)⟩ [1, 2, 4, 8, 16, 32, 64]

/-- The rounds under the given keys; the last round does not mix. -/
def encipher : List State → State → State
  | [], s => s
  | [key], s => s.confuse.add key
  | key :: rest, s => encipher rest ((s.confuse.map Column.mix).add key)

def decipher : List State → State → State
  | [], s => s
  | [key], s => (s.add key).deconfuse
  | key :: rest, s => (((decipher rest s).add key).map Column.unmix).deconfuse

/-- A key whose rounds are laid out. -/
structure Key where
  -- the key added before the first round
  whitening : State
  rounds : List State

def Key.ofBytes (key : Vector UInt8 32) : Key :=
  match roundKeys key with
  | [] => ⟨.ofBlock (Vector.replicate 16 0), []⟩
  | first :: rest => ⟨first, rest⟩

def Key.encrypt (k : Key) (b : Block) : Block :=
  (encipher k.rounds ((State.ofBlock b).add k.whitening)).toBlock

def Key.decrypt (k : Key) (b : Block) : Block :=
  ((decipher k.rounds (State.ofBlock b)).add k.whitening).toBlock

end Signet.Aes
