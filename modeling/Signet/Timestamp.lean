import Signet.Bytes
/-!
Points in time: whole seconds since the start of the year 2000, and a binary fraction of a second
in units of `2 ^ -64`.
-/
namespace Signet

open scoped Powers

/-- A point in time. -/
structure Timestamp where
  -- whole seconds, rounded toward the past
  secs : Int64
  -- the part of a second beyond them
  fraction : UInt64 := 0
deriving DecidableEq

namespace Timestamp

def secondsPerDay : Int := 86400

/-- Seconds from the start of 1970 to the start of 2000. -/
def unixOffset : Int64 := 946684800

def microsecond : UInt64 := 0x10C6F7A0B5ED

def epoch : Timestamp := ⟨0, 0⟩

instance : Inhabited Timestamp := ⟨epoch⟩

/-- The time in units of `2 ^ -64` of a second. -/
def raw (t : Timestamp) : Int := t.secs.toInt * 2 ^ 64 + t.fraction.toNat

/-- Drops the fraction. -/
def trunc (t : Timestamp) : Timestamp := ⟨t.secs, 0⟩

/-- Earlier times come first. -/
def compare (s t : Timestamp) : Ordering := Ord.compare s.raw t.raw

def fit? (n : Int) : Option Int64 :=
  if -2 ^ 63 ≤ n ∧ n < 2 ^ 63 then some (Int64.ofInt n) else none

def addSecs? (t : Timestamp) (n : Int64) : Option Timestamp :=
  (fit? (t.secs.toInt + n.toInt)).map fun secs => ⟨secs, t.fraction⟩

def addDays? (t : Timestamp) (n : Int64) : Option Timestamp :=
  (fit? (n.toInt * secondsPerDay)).bind t.addSecs?

/-- The time of a clock that counts seconds and microseconds from the start of 1970. -/
def ofUnix (secs : Int64) (micros : UInt32) : Timestamp :=
  ⟨secs - unixOffset, micros.toUInt64 * microsecond⟩

def secsBytes (t : Timestamp) : Bytes := Bytes.bigEndian 8 t.secs.toUInt64.toNat

def ofSecsBytes (bytes : Bytes) : Timestamp :=
  ⟨(UInt64.ofNat (Bytes.ofBigEndian bytes)).toInt64, 0⟩

/-- Seconds and fraction in sixteen bytes, lowest first in each half. -/
def saltBytes (t : Timestamp) : Bytes :=
  Bytes.littleEndian 8 t.secs.toUInt64.toNat ++ Bytes.littleEndian 8 t.fraction.toNat

/-- The text that names the type, with the seconds and the digits of the fraction. -/
def describe (t : Timestamp) : String :=
  "Timestamp(" ++ toString t.secs.toInt ++ "+0x" ++
    (Bytes.bigEndian 8 t.fraction.toNat).toHex ++ ")"

end Timestamp
end Signet
