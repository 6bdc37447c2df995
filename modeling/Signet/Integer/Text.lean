import Signet.Bytes
import Signet.Integer.Basic
import Signet.Text
/-!
Integers as text: a minus sign and digits in a base from 2 to 16. Written digits are in upper case
and have no leading zeros; read digits may be in either case and may have them.
-/
namespace Signet.Integer

def isRadix (radix : Nat) : Bool := decide (2 ≤ radix) && decide (radix ≤ 16)

/-- The digits of the absolute value in lower case; zero is the one digit 0. -/
def digitText (radix : Nat) (x : Integer) : List Char :=
  if x.isZero then ['0'] else (x.magnitude.toDigits radix).map Nat.digitChar

def toText (x : Integer) (radix : Nat) : Except Error String :=
  if isRadix radix then
    let digits := (x.digitText radix).map Char.toUpper
    .ok (String.ofList (if x.negative then '-' :: digits else digits))
  else .error .invalidParameter

/-- The value of a digit or letter in a base, when it has one. -/
def digitValue? (radix : Nat) (c : Char) : Option Nat :=
  let value? :=
    if '0' ≤ c ∧ c ≤ '9' then some (c.toNat - '0'.toNat)
    else if 'a' ≤ c ∧ c ≤ 'z' then some (c.toNat - 'a'.toNat + 10)
    else if 'A' ≤ c ∧ c ≤ 'Z' then some (c.toNat - 'A'.toNat + 10)
    else none
  value?.filter (· < radix)

def ofDigits? (radix : Nat) (negative : Bool) (digits : List Char) : Option Integer :=
  if digits.isEmpty then none
  else (digits.mapM (digitValue? radix)).map fun values =>
    ofMagnitude negative (.ofDigits radix values)

def ofChars? (radix : Nat) (text : List Char) : Option Integer :=
  if isRadix radix then
    match text with
    | '-' :: digits => ofDigits? radix true digits
    | digits => ofDigits? radix false digits
  else none

def ofText? (radix : Nat) (text : String) : Option Integer := ofChars? radix text.toList

/-- Reads a byte string of ASCII characters that hold nothing but an integer. -/
def ofAscii? (radix : Nat) (bytes : Bytes) : Option Integer :=
  ofChars? radix (bytes.map fun b => Char.ofNat b.toNat)

def parseDecimal (text : String) : Except Error Integer :=
  match ofText? 10 text with
  | some x => .ok x
  | none => .error .invalidParameter

/-- The notations that a format may ask for. -/
inductive Numeral where
  | decimal
  | lowerHex
  | upperHex
  | binary
deriving DecidableEq, Inhabited

namespace Numeral

def radix : Numeral → Nat
  | decimal => 10
  | lowerHex | upperHex => 16
  | binary => 2

/-- What marks the base before the digits; decimal digits need no mark. -/
def mark : Numeral → List Char
  | decimal => []
  | lowerHex | upperHex => ['0', 'x']
  | binary => ['0', 'b']

def digits (base : Numeral) (x : Integer) : List Char :=
  let text := x.digitText base.radix
  if base = upperHex then text.map Char.toUpper else text

end Numeral

/-- How an integer is laid out in a field. -/
structure Format where
  base : Numeral := .decimal
  -- a plus sign stands before an integer that is not negative
  plus : Bool := false
  -- the mark of the base stands before the digits
  marked : Bool := false
  -- the field is filled with zeros between the mark and the digits
  zeroFilled : Bool := false
  align : Text.Alignment := .right
  fill : Char := ' '
  width : Nat := 0

/-- Lays an integer out: sign, mark of the base and digits, filled up to the width. -/
def format (f : Format) (x : Integer) : String :=
  let sign := if x.negative then ['-'] else if f.plus then ['+'] else []
  let head := sign ++ (if f.marked then f.base.mark else [])
  let digits := f.base.digits x
  if f.zeroFilled then
    String.ofList (head ++ Text.pad '0' .right (f.width - head.length) digits)
  else String.ofList (Text.pad f.fill f.align f.width (head ++ digits))

def toDecimal (x : Integer) : String := x.format {}

def toHex (x : Integer) : String := x.format { base := .lowerHex }

def describe (x : Integer) : String :=
  "BigNum(" ++ x.format { base := .lowerHex, marked := true } ++ ")"

end Signet.Integer
