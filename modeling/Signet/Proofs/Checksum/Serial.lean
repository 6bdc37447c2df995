import Mathlib
import Signet.Checksum
import Signet.Proofs.Cipher.Aes

/-! The checksum by single binary digits of the message, in the order of their places: each is added
to the lowest digit of the register, which then moves down, and takes the polynomial in when the sum
is one. The steps are additive and lose nothing, so that eight of them are the entry of a table and a
shift. Main statements: `stepBit_xor`, `stepBit_injective`, `foldl_stepDigit`, `stepByte_eq` and
`checksum_serial`. -/
namespace Signet.Crc32

section Register

variable (x y : UInt32)

/-- What a register takes in when its lowest digit leaves it. -/
def feedback : UInt32 := if x &&& 1 = 0 then 0 else polynomial

theorem stepBit_eq : stepBit x = feedback x ^^^ (x >>> 1) := by
  rw [stepBit, feedback]
  split
  · rw [UInt32.zero_xor]
  · rfl

theorem and_one_eq_zero_iff : x &&& 1 = 0 ↔ x.toNat % 2 = 0 := by
  rw [← UInt32.toNat_inj, UInt32.toNat_and, UInt32.toNat_one, UInt32.toNat_zero,
    Nat.and_one_is_mod]

theorem toNat_shiftRight_one : (x >>> 1).toNat = x.toNat / 2 := by
  rw [UInt32.toNat_shiftRight, UInt32.toNat_one, Nat.one_mod, Nat.shiftRight_eq_div_pow, pow_one]

theorem feedback_xor : feedback (x ^^^ y) = feedback x ^^^ feedback y := by
  have hlow : (x ^^^ y).toNat % 2 = (x.toNat + y.toNat) % 2 := by
    rw [UInt32.toNat_xor, Nat.xor_mod_two_eq]
  simp only [feedback, and_one_eq_zero_iff, hlow]
  rcases Nat.mod_two_eq_zero_or_one x.toNat with hx | hx <;>
    rcases Nat.mod_two_eq_zero_or_one y.toNat with hy | hy <;>
    simp [Nat.add_mod, hx, hy]

/-- The step is additive over single digits. -/
theorem stepBit_xor : stepBit (x ^^^ y) = stepBit x ^^^ stepBit y := by
  rw [stepBit_eq, stepBit_eq, stepBit_eq, feedback_xor, UInt32.shiftRight_xor]
  ac_rfl

theorem iterate_stepBit_xor (count : ℕ) :
    stepBit^[count] (x ^^^ y) = stepBit^[count] x ^^^ stepBit^[count] y := by
  induction count generalizing x y with
  | zero => rfl
  | succ count ih =>
    rw [Function.iterate_succ_apply, Function.iterate_succ_apply, Function.iterate_succ_apply,
      stepBit_xor, ih]

theorem stepBit_of_even {x : UInt32} (h : x.toNat % 2 = 0) : stepBit x = x >>> 1 :=
  if_pos ((and_one_eq_zero_iff x).mpr h)

/-- The polynomial sets the highest digit, which has just become free, so that only zero goes to
zero. -/
theorem eq_zero_of_stepBit {x : UInt32} (h : stepBit x = 0) : x = 0 := by
  have hhalf := toNat_shiftRight_one x
  have hlt := x.toNat_lt
  rw [stepBit] at h
  split at h
  · next heven =>
    rw [and_one_eq_zero_iff] at heven
    rw [h, UInt32.toNat_zero] at hhalf
    rw [← UInt32.toNat_inj, UInt32.toNat_zero]
    omega
  · have htop : polynomial = x >>> 1 := UInt32.xor_eq_zero_iff.mp h
    have hpolynomial : polynomial.toNat = 0xEDB88320 := rfl
    rw [htop, hhalf] at hpolynomial
    omega

theorem stepBit_injective : Function.Injective stepBit := by
  intro x y h
  apply UInt32.xor_eq_zero_iff.mp
  apply eq_zero_of_stepBit
  rw [stepBit_xor, h, UInt32.xor_self]

/-- Zeros at the low end are shifted out and nothing comes in. -/
theorem iterate_stepBit_of_dvd (count : ℕ) {x : UInt32} (h : 2 ^ count ∣ x.toNat) :
    (stepBit^[count] x).toNat = x.toNat / 2 ^ count := by
  induction count generalizing x with
  | zero => rw [pow_zero, Nat.div_one, Function.iterate_zero_apply]
  | succ count ih =>
    have heven : x.toNat % 2 = 0 :=
      Nat.mod_eq_zero_of_dvd ((dvd_pow_self 2 (Nat.succ_ne_zero count)).trans h)
    have hhalf : 2 ^ count ∣ (x >>> 1).toNat := by
      rw [toNat_shiftRight_one]
      rw [pow_succ'] at h
      exact Nat.dvd_div_of_mul_dvd h
    rw [Function.iterate_succ_apply, stepBit_of_even heven, ih hhalf, toNat_shiftRight_one,
      Nat.div_div_eq_div_mul, pow_succ']

end Register

section Table

theorem toNat_shiftRight_eight (x : UInt32) : (x >>> 8).toNat = x.toNat / 2 ^ 8 := by
  rw [UInt32.toNat_shiftRight, show (8 : UInt32).toNat % 32 = 8 from rfl,
    Nat.shiftRight_eq_div_pow]

theorem byte_shiftRight_eight (b : UInt8) : b.toUInt32 >>> 8 = 0 := by
  rw [← UInt32.toNat_inj, toNat_shiftRight_eight, UInt8.toNat_toUInt32, UInt32.toNat_zero]
  exact Nat.div_eq_of_lt b.toNat_lt

theorem ofNat_toNat_byte (b : UInt8) : UInt32.ofNat b.toNat = b.toUInt32 := by
  rw [← UInt32.toNat_inj, UInt32.toNat_ofNat', UInt8.toNat_toUInt32]
  exact Nat.mod_eq_of_lt (b.toNat_lt.trans (by norm_num))

/-- Eight steps of a register are those of its lowest byte, with the other bytes moved down. -/
theorem stepBits_eq (x : UInt32) :
    stepBits x = stepBits x.toUInt8.toUInt32 ^^^ (x >>> 8) := by
  have hsplit : x = x.toUInt8.toUInt32 ^^^ (x ^^^ x.toUInt8.toUInt32) := by
    rw [UInt32.xor_comm x, ← UInt32.xor_assoc, UInt32.xor_self, UInt32.zero_xor]
  -- without its lowest byte a register meets no polynomial in eight steps
  have hlow : 2 ^ 8 ∣ (x ^^^ x.toUInt8.toUInt32).toNat := by
    apply Nat.dvd_of_mod_eq_zero
    rw [UInt32.toNat_xor, UInt8.toNat_toUInt32, UInt32.toNat_toUInt8, Nat.xor_mod_two_pow,
      Nat.mod_mod, Nat.xor_self]
  have hhigh : stepBit^[8] (x ^^^ x.toUInt8.toUInt32) = x >>> 8 := by
    rw [← UInt32.toNat_inj, iterate_stepBit_of_dvd 8 hlow, ← toNat_shiftRight_eight,
      UInt32.shiftRight_xor, byte_shiftRight_eight, UInt32.xor_zero]
  calc
    stepBits x = stepBit^[8] (x.toUInt8.toUInt32 ^^^ (x ^^^ x.toUInt8.toUInt32)) := by
      rw [← hsplit]
      rfl
    _ = stepBit^[8] x.toUInt8.toUInt32 ^^^ stepBit^[8] (x ^^^ x.toUInt8.toUInt32) := by
      apply iterate_stepBit_xor
    _ = stepBits x.toUInt8.toUInt32 ^^^ (x >>> 8) := by
      rw [hhigh]
      rfl

/-- A step through the table is eight steps of the register, after the byte was added to it. -/
theorem stepByte_eq (register : UInt32) (b : UInt8) :
    stepByte register b = stepBits (register ^^^ b.toUInt32) := by
  have hentry : table.get ⟨(register.toUInt8 ^^^ b).toNat, UInt8.toNat_lt _⟩ =
      stepBits (register ^^^ b.toUInt32).toUInt8.toUInt32 := by
    rw [table, Vector.get_ofFn, UInt32.toUInt8_xor, UInt8.toUInt8_toUInt32]
    exact congrArg stepBits (ofNat_toNat_byte _)
  rw [stepByte, hentry, stepBits_eq (register ^^^ b.toUInt32), UInt32.shiftRight_xor,
    byte_shiftRight_eight, UInt32.xor_zero]

end Table

section Digits

/-- One digit of the message goes in. -/
def stepDigit (register : UInt32) (digit : Bool) : UInt32 :=
  if (register &&& (1 : UInt32) == 1) != digit then (0xEDB88320 : UInt32) ^^^ (register >>> 1)
  else register >>> 1

/-- The digits of a byte, the lowest first. -/
def digits (b : UInt8) : List Bool := (List.range 8).map b.toNat.testBit

def digitsOf (bytes : Bytes) : List Bool := bytes.flatMap digits

/-- The checksum digit by digit: the register starts as all ones and is complemented at the end. -/
def serial (bytes : Bytes) : UInt32 := ~~~((digitsOf bytes).foldl stepDigit 0xFFFFFFFF)

/-- The word with the given digits, the lowest first. -/
def wordOf (ds : List Bool) : UInt32 := UInt32.ofNat (Nat.ofDigits 2 (ds.map Bool.toNat))

/-- A digit may be added to the register before the step. -/
theorem stepDigit_eq (register : UInt32) (digit : Bool) :
    stepDigit register digit = stepBit (register ^^^ digit.toUInt32) := by
  have hlow : register &&& 1 = 0 ∨ register &&& 1 = 1 := by
    rw [and_one_eq_zero_iff, ← UInt32.toNat_inj, UInt32.toNat_and, UInt32.toNat_one,
      Nat.and_one_is_mod]
    exact Nat.mod_two_eq_zero_or_one _
  have hshift : digit.toUInt32 >>> 1 = 0 := by cases digit <;> rfl
  rw [stepBit_eq, feedback_xor, UInt32.shiftRight_xor, hshift, UInt32.xor_zero, stepDigit]
  -- the digit that leaves is the sum of the lowest digit and the one that goes in
  rcases hlow with h | h <;> cases digit <;> simp [feedback, h, polynomial, Bool.toUInt32]

theorem digit_lt (ds : List Bool) : ∀ d ∈ ds.map Bool.toNat, d < 2 := by
  intro d hd
  obtain ⟨digit, -, rfl⟩ := List.mem_map.mp hd
  exact digit.toNat_lt

theorem toNat_wordOf {ds : List Bool} (h : ds.length ≤ 32) :
    (wordOf ds).toNat = Nat.ofDigits 2 (ds.map Bool.toNat) := by
  have hlt := Nat.ofDigits_lt_base_pow_length one_lt_two (digit_lt ds)
  rw [List.length_map] at hlt
  rw [wordOf, UInt32.toNat_ofNat']
  exact Nat.mod_eq_of_lt (hlt.trans_le (Nat.pow_le_pow_right two_pos h))

/-- No more digits than a word holds can be read off it. -/
theorem wordOf_inj {ds es : List Bool} (hlength : ds.length = es.length) (h : ds.length ≤ 32)
    (hword : wordOf ds = wordOf es) : ds = es := by
  have hvalue := congrArg UInt32.toNat hword
  rw [toNat_wordOf h, toNat_wordOf (hlength ▸ h)] at hvalue
  have hdigits := Nat.ofDigits_inj_of_len_eq one_lt_two
    (by rw [List.length_map, List.length_map, hlength]) (digit_lt ds) (digit_lt es) hvalue
  have hbool : ∀ d e : Bool, d.toNat = e.toNat → d = e := by decide
  exact (List.map_inj_right hbool).mp hdigits

/-- A step takes the lowest digit off. -/
theorem stepBit_wordOf (digit : Bool) {rest : List Bool} (h : rest.length < 32) :
    stepBit (wordOf (digit :: rest) ^^^ digit.toUInt32) = wordOf rest := by
  have hdigit : digit.toUInt32.toNat = digit.toNat := by cases digit <;> rfl
  have hlt := digit.toNat_lt
  have hlength : (digit :: rest).length ≤ 32 := h
  have hword := toNat_wordOf hlength
  rw [List.map_cons, Nat.ofDigits_cons, ← toNat_wordOf h.le] at hword
  have heven : (wordOf (digit :: rest) ^^^ digit.toUInt32).toNat % 2 = 0 := by
    rw [UInt32.toNat_xor, Nat.xor_mod_two_eq, hword, hdigit]
    omega
  rw [stepBit_of_even heven, ← UInt32.toNat_inj, toNat_shiftRight_one, UInt32.toNat_xor,
    Nat.xor_div_two, hword, hdigit, Nat.div_eq_of_lt hlt, Nat.xor_zero]
  omega

/-- Digits that a word holds may be added to the register all at once, before as many steps. -/
theorem foldl_stepDigit (register : UInt32) {ds : List Bool} (h : ds.length ≤ 32) :
    ds.foldl stepDigit register = stepBit^[ds.length] (register ^^^ wordOf ds) := by
  induction ds generalizing register with
  | nil => exact UInt32.xor_zero.symm
  | cons digit rest ih =>
    have hrest : rest.length < 32 := h
    have hcancel : register ^^^ digit.toUInt32 ^^^ (wordOf (digit :: rest) ^^^ digit.toUInt32) =
        register ^^^ wordOf (digit :: rest) := by
      rw [UInt32.xor_comm (wordOf _), UInt32.xor_assoc, ← UInt32.xor_assoc digit.toUInt32,
        UInt32.xor_self, UInt32.zero_xor]
    calc
      (digit :: rest).foldl stepDigit register
          = stepBit^[rest.length] (stepDigit register digit ^^^ wordOf rest) := by
        apply ih _ hrest.le
      _ = stepBit^[rest.length] (stepBit (register ^^^ wordOf (digit :: rest))) := by
        -- the step is additive, so that the word may be added before it
        rw [stepDigit_eq, ← stepBit_wordOf digit hrest, ← stepBit_xor, hcancel]
      _ = stepBit^[(digit :: rest).length] (register ^^^ wordOf (digit :: rest)) := by
        rw [List.length_cons, Function.iterate_succ_apply]

theorem wordOf_digits : ∀ b : UInt8, wordOf (digits b) = b.toUInt32 :=
  Aes.forall_byte (by decide +kernel)

theorem length_digits (b : UInt8) : (digits b).length = 8 := by
  rw [digits, List.length_map, List.length_range]

theorem foldl_digits (register : UInt32) (b : UInt8) :
    (digits b).foldl stepDigit register = stepBits (register ^^^ b.toUInt32) := by
  rw [foldl_stepDigit register (by rw [length_digits]; norm_num), length_digits, wordOf_digits]
  rfl

/-- The bytes through the table and their digits one by one leave the same register. -/
theorem foldl_stepByte (register : UInt32) (bytes : Bytes) :
    bytes.foldl stepByte register = (digitsOf bytes).foldl stepDigit register := by
  rw [digitsOf, List.foldl_flatMap]
  congr 1
  funext register b
  rw [stepByte_eq, foldl_digits]

end Digits

section Pieces

/-- The look-up by the lowest byte of the sum, which has to be in the table. -/
def stepByte? (register : UInt32) (b : UInt8) : Option UInt32 :=
  (table.toList[((register ^^^ b.toUInt32) &&& 0xFF).toNat]?).map (· ^^^ (register >>> 8))

theorem stepByte?_eq (register : UInt32) (b : UInt8) :
    stepByte? register b = some (stepByte register b) := by
  have hindex : ((register ^^^ b.toUInt32) &&& 0xFF).toNat = (register.toUInt8 ^^^ b).toNat := by
    rw [UInt32.toNat_and, show (0xFF : UInt32).toNat = 2 ^ 8 - 1 from rfl,
      Nat.and_two_pow_sub_one_eq_mod, ← UInt32.toNat_toUInt8, UInt32.toUInt8_xor,
      UInt8.toUInt8_toUInt32]
  have hlt := (register.toUInt8 ^^^ b).toNat_lt
  rw [stepByte?, hindex, List.getElem?_eq_getElem (by rwa [Vector.length_toList])]
  rfl

theorem foldl_update (c : Crc32) (pieces : List Bytes) :
    pieces.foldl update c = c.update pieces.flatten := by
  induction pieces generalizing c with
  | nil => rfl
  | cons piece rest ih =>
    rw [List.foldl_cons, ih, List.flatten_cons, update, update, update, List.foldl_append]

/-- However a message is cut into pieces, and whether its bytes go through the table or in eight
steps each, the checksum is the one that its digits give one by one. -/
theorem checksum_serial (pieces : List Bytes) :
    (pieces.foldl update start).value = serial pieces.flatten ∧
      (pieces.foldl update start).finish = .ok (ofBytes pieces.flatten) ∧
      ofBytes pieces.flatten = serial pieces.flatten ∧
      bitwise pieces.flatten = serial pieces.flatten ∧
      ∀ register b, stepByte? register b = some (stepByte register b) := by
  have hserial : ofBytes pieces.flatten = serial pieces.flatten := by
    rw [ofBytes, value, update, foldl_stepByte]
    rfl
  have hbitwise : stepBitwise = stepByte := by
    funext register b
    rw [stepByte_eq, stepBitwise]
  rw [foldl_update, finish, bitwise, hbitwise, foldl_stepByte]
  exact ⟨hserial, rfl, hserial, rfl, stepByte?_eq⟩

-- the check value of the format
example : Crc32.ofBytes [49, 50, 51, 52, 53, 54, 55, 56, 57] = 0xCBF43926 := by decide +kernel

end Pieces

end Signet.Crc32
