import Signet.Integer.Basic
/-!
Signed arithmetic over magnitudes. Division rounds toward negative infinity, so that a remainder
is zero or has the sign of the divisor.
-/
namespace Signet.Integer

def neg (x : Integer) : Integer := ofMagnitude (!x.negative) x.magnitude

def abs (x : Integer) : Integer := ofMagnitude false x.magnitude

/-- The sum of two signed magnitudes: equal signs add up, and otherwise the smaller magnitude is
taken from the larger one, whose sign stays. -/
def addSigned (aNegative : Bool) (a : Magnitude) (bNegative : Bool) (b : Magnitude) : Integer :=
  if aNegative == bNegative then ofMagnitude aNegative (a.add b)
  else
    match a.compare b with
    | .gt => ofMagnitude aNegative (a.sub b)
    | .lt => ofMagnitude bNegative (b.sub a)
    | .eq => 0

def add (a b : Integer) : Integer := addSigned a.negative a.magnitude b.negative b.magnitude

def sub (a b : Integer) : Integer := addSigned a.negative a.magnitude (!b.negative) b.magnitude

def mul (a b : Integer) : Integer :=
  ofMagnitude (a.negative != b.negative) (a.magnitude.mul b.magnitude)

instance : Neg Integer := ⟨neg⟩

instance : Add Integer := ⟨add⟩

instance : Sub Integer := ⟨sub⟩

instance : Mul Integer := ⟨mul⟩

/-- Floor quotient and remainder; both are zero when either operand is. -/
def divMod (a b : Integer) : Integer × Integer :=
  if a.isZero || b.isZero then (0, 0)
  else
    let (quotient, remainder) := a.magnitude.divMod b.magnitude
    let signsDiffer := a.negative != b.negative
    let q := ofMagnitude signsDiffer quotient
    let r := ofMagnitude a.negative remainder
    -- rounded toward zero so far; the floor of a negative quotient lies one below
    if signsDiffer && !r.isZero then (q - 1, r + b) else (q, r)

def div (a b : Integer) : Integer := (divMod a b).1

def mod (a b : Integer) : Integer := (divMod a b).2

instance : Div Integer := ⟨div⟩

instance : Mod Integer := ⟨mod⟩

end Signet.Integer
