import Mathlib
import Signet.Integer.Lemmas
import Signet.Integer.Octets

/-! Integers and byte strings stand for the same numbers: digits in base 256 are bytes, and a fixed
width only adds leading zeros. The sign is not written, so that what is read back is the absolute
value. Main statements: `toFixedBytes_eq_ok_iff`, `load_eq_ok_iff`, `load_bigEndian_abs`,
`bigEndian_of_load` and `save_eq_ok`. -/
namespace Signet

namespace Bytes

theorem ofLittleEndian_eq_ofDigits (bytes : Bytes) :
    ofLittleEndian bytes = Nat.ofDigits 256 (bytes.map UInt8.toNat) := by
  induction bytes with
  | nil => rfl
  | cons b rest ih => rw [ofLittleEndian, List.map_cons, Nat.ofDigits_cons, ih]

/-- The numbers that bytes have room for, in binary digits. -/
theorem pow_eq (count : ℕ) : 256 ^ count = 2 ^ (8 * count) := by
  rw [pow_mul]
  rfl

end Bytes

namespace Magnitude

/-- A row of digits, each of them a word, stands for its number. -/
theorem toNat_ofDigits {base : ℕ} (hbase : base < 2 ^ 64) (digits : List ℕ)
    (hdigits : ∀ d ∈ digits, d < 2 ^ 64) :
    (ofDigits base digits).toNat = Nat.ofDigits base digits.reverse := by
  induction digits using List.reverseRecOn with
  | nil => rfl
  | append_singleton digits d ih =>
    have hd : d < 2 ^ 64 := hdigits d (by simp)
    have hrest := ih fun x hx => hdigits x (by simp [hx])
    rw [ofDigits] at hrest
    rw [ofDigits, List.foldl_append, List.foldl_cons, List.foldl_nil, toNat_mulAddWord, hrest,
      toNat_ofNat_mod, toNat_ofNat_mod, Nat.mod_eq_of_lt hbase, Nat.mod_eq_of_lt hd,
      List.reverse_append, List.reverse_singleton, List.singleton_append, Nat.ofDigits_cons]
    ring

theorem digitsUp_eq_digits {base : ℕ} (hbase : 1 < base) (count : ℕ) (m : Magnitude)
    (hm : m.toNat < 2 ^ count) : digitsUp base count m = Nat.digits base m.toNat := by
  induction count generalizing m with
  | zero =>
    rw [pow_zero, Nat.lt_one_iff] at hm
    rw [digitsUp, hm, Nat.digits_zero]
  | succ count ih =>
    obtain ⟨hq, hr⟩ := toNat_divModSmall m base (by omega)
    rw [digitsUp]
    by_cases hzero : m.toNat = 0
    · rw [if_pos ((isZero_iff m).mpr hzero), hzero, Nat.digits_zero]
    · have hlt : (m.divModSmall base).1.toNat < 2 ^ count := by
        have hhalf : m.toNat / base ≤ m.toNat / 2 := Nat.div_le_div_left hbase (by omega)
        rw [pow_succ] at hm
        rw [hq]
        omega
      rw [if_neg (mt (isZero_iff m).mp hzero), Nat.digits_def' hbase (by omega), ← hq, ← hr]
      exact congrArg _ (ih _ hlt)

theorem toDigits_eq_digits {base : ℕ} (hbase : 1 < base) (m : Magnitude) :
    m.toDigits base = (Nat.digits base m.toNat).reverse := by
  rw [toDigits, digitsUp_eq_digits hbase _ m ((lt_two_pow_iff m m.bits).mpr le_rfl)]

/-- Leading zeros are the digits that the number does not have. -/
theorem digits_ofDigits_reverse {base : ℕ} (hbase : 1 < base) {digits : List ℕ}
    (hsmall : ∀ d ∈ digits, d < base) :
    (Nat.digits base (Nat.ofDigits base digits.reverse)).reverse = digits.dropWhile (· = 0) := by
  induction digits with
  | nil => rw [List.reverse_nil, Nat.ofDigits_nil, Nat.digits_zero]; rfl
  | cons d rest ih =>
    by_cases hzero : d = 0
    · rw [List.dropWhile_cons, if_pos (by simpa using hzero),
        ← ih fun x hx => hsmall x (by simp [hx]), List.reverse_cons, Nat.ofDigits_append,
        Nat.ofDigits_singleton, hzero, mul_zero, add_zero]
    · rw [List.dropWhile_cons, if_neg (by simpa using hzero), Nat.digits_ofDigits base hbase,
        List.reverse_reverse]
      · exact fun x hx => hsmall x (List.mem_reverse.mp hx)
      · intro _
        simpa using hzero

end Magnitude

namespace Integer

theorem toInt_ofBytes (bytes : Bytes) : (ofBytes bytes).toInt = Bytes.ofBigEndian bytes := by
  have hdigits : ∀ d ∈ bytes.map UInt8.toNat, d < 2 ^ 64 := by
    intro d hd
    obtain ⟨b, -, rfl⟩ := List.mem_map.mp hd
    exact b.toNat_lt.trans (by norm_num)
  rw [ofBytes, toInt_ofMagnitude, if_neg Bool.false_ne_true,
    Magnitude.toNat_ofDigits (by norm_num) _ hdigits, Bytes.ofBigEndian,
    Bytes.ofLittleEndian_eq_ofDigits, List.map_reverse]

theorem load_eq_ok {bytes : Bytes} {width : ℕ} (hmul : width % 8 = 0) (hmax : width ≤ maxBits)
    (hlength : width / 8 ≤ bytes.length) :
    load bytes width = .ok (ofBytes (bytes.take (width / 8))) := by
  rw [load, if_neg (by omega), if_neg (by omega), if_neg (by omega)]

theorem ofBigEndian_toBytes (x : Integer) : Bytes.ofBigEndian x.toBytes = x.toInt.natAbs := by
  have hdigits : (x.magnitude.toDigits 256).reverse = Nat.digits 256 x.toInt.natAbs := by
    rw [Magnitude.toDigits_eq_digits (by norm_num), List.reverse_reverse, toNat_magnitude]
  have hbytes : ((Nat.digits 256 x.toInt.natAbs).map UInt8.ofNat).map UInt8.toNat =
      Nat.digits 256 x.toInt.natAbs := by
    rw [List.map_map]
    refine (List.map_congr_left (g := id) ?_).trans (List.map_id _)
    intro d hd
    exact UInt8.toNat_ofNat_of_lt' (Nat.digits_lt_base (by norm_num) hd)
  rw [Bytes.ofBigEndian, Bytes.ofLittleEndian_eq_ofDigits, toBytes, ← List.map_reverse, hdigits,
    hbytes, Nat.ofDigits_digits]

/-- The fewest bytes fit in a width exactly when the number does. -/
theorem length_toBytes_le_iff (x : Integer) (width : ℕ) :
    x.toBytes.length ≤ width ↔ x.toInt.natAbs < 256 ^ width := by
  rw [toBytes, List.length_map, Magnitude.toDigits_eq_digits (by norm_num), List.length_reverse,
    toNat_magnitude, Nat.digits_length_le_iff (by norm_num)]

theorem zeros_append_toBytes (x : Integer) {width : ℕ} (h : x.toInt.natAbs < 256 ^ width) :
    Bytes.zeros (width - x.toBytes.length) ++ x.toBytes =
      Bytes.bigEndian width x.toInt.natAbs := by
  have hlength := (length_toBytes_le_iff x width).mpr h
  apply Bytes.eq_bigEndian
  · rw [List.length_append, Bytes.length_zeros]
    omega
  · rw [Bytes.ofBigEndian_zeros_append, ofBigEndian_toBytes]

theorem toFixedBytes_eq_ok (x : Integer) {width : ℕ} (h : x.toInt.natAbs < 256 ^ width) :
    x.toFixedBytes width = .ok (Bytes.bigEndian width x.toInt.natAbs) := by
  have hlength := (length_toBytes_le_iff x width).mpr h
  rw [toFixedBytes, if_neg (by omega), zeros_append_toBytes x h]

/-- A fixed width is refused to numbers that need more bytes, and to no others. -/
theorem toFixedBytes_eq_ok_iff (x : Integer) {width : ℕ} {bytes : Bytes} :
    x.toFixedBytes width = .ok bytes ↔
      x.toInt.natAbs < 256 ^ width ∧ bytes = Bytes.bigEndian width x.toInt.natAbs := by
  constructor
  · intro h
    have hlt : x.toInt.natAbs < 256 ^ width := by
      rw [← length_toBytes_le_iff]
      by_contra hlong
      rw [toFixedBytes, if_pos (by omega)] at h
      cases h
    rw [x.toFixedBytes_eq_ok hlt] at h
    exact ⟨hlt, (Except.ok.inj h).symm⟩
  · rintro ⟨hlt, rfl⟩
    exact x.toFixedBytes_eq_ok hlt

theorem save_eq_ok (x : Integer) {width : ℕ} (h : x.toInt.natAbs < 256 ^ width) :
    x.save (8 * width) (8 * width) = .ok (Bytes.bigEndian width x.toInt.natAbs) := by
  have hbits : x.bits ≤ 8 * width := by
    rw [bits_le_iff, pow_mul]
    exact h
  rw [save, if_neg (by simp), if_neg (by omega), ← zeros_append_toBytes x h,
    Nat.mul_div_cancel_left _ (by norm_num)]

theorem abs_eq_self_iff (x : Integer) : x.abs = x ↔ 0 ≤ x.toInt := by
  rw [← toInt_inj, toInt_abs]
  omega

/-- Bytes of the right width are read back as the absolute value of the number that was written. -/
theorem load_bigEndian_abs {x : Integer} {width : ℕ} (hmul : width % 8 = 0) (hmax : width ≤ maxBits)
    (hlt : x.toInt.natAbs < 256 ^ (width / 8)) :
    load (Bytes.bigEndian (width / 8) x.toInt.natAbs) width = .ok x.abs := by
  have hlength : (Bytes.bigEndian (width / 8) x.toInt.natAbs).length = width / 8 :=
    Bytes.length_bigEndian ..
  rw [load_eq_ok hmul hmax hlength.ge, List.take_of_length_le hlength.le]
  congr 1
  rw [← toInt_inj, toInt_ofBytes, Bytes.ofBigEndian_bigEndian_of_lt hlt, toInt_abs]

theorem load_bigEndian {x : Integer} {width : ℕ} (hmul : width % 8 = 0) (hmax : width ≤ maxBits)
    (hnonneg : 0 ≤ x.toInt) (hlt : x.toInt.natAbs < 256 ^ (width / 8)) :
    load (Bytes.bigEndian (width / 8) x.toInt.natAbs) width = .ok x := by
  rw [load_bigEndian_abs hmul hmax hlt, (abs_eq_self_iff x).mpr hnonneg]

/-- Loading takes a width in whole bytes, no more than numbers may have and than there are. -/
theorem load_eq_ok_iff {bytes : Bytes} {width : ℕ} {x : Integer} :
    load bytes width = .ok x ↔
      (width % 8 = 0 ∧ width ≤ maxBits ∧ width / 8 ≤ bytes.length) ∧
        x = ofBytes (bytes.take (width / 8)) := by
  constructor
  · intro h
    rw [load] at h
    split_ifs at h with hmul hmax hlength
    exact ⟨⟨by omega, by omega, by omega⟩, (Except.ok.inj h).symm⟩
  · rintro ⟨⟨hmul, hmax, hlength⟩, rfl⟩
    exact load_eq_ok hmul hmax hlength

theorem width_le_of_load {bytes : Bytes} {width : ℕ} {x : Integer}
    (h : load bytes width = .ok x) : width ≤ maxBits := (load_eq_ok_iff.mp h).1.2.1

/-- A number that was loaded from a whole field is written as that field. -/
theorem bigEndian_of_load {field : Bytes} {width : ℕ} {x : Integer}
    (h : load field width = .ok x) (hlength : field.length = width / 8) :
    0 ≤ x.toInt ∧ x.toInt.natAbs < 256 ^ field.length ∧
      Bytes.bigEndian field.length x.toInt.natAbs = field := by
  obtain ⟨-, rfl⟩ := load_eq_ok_iff.mp h
  rw [← hlength, List.take_length, toInt_ofBytes, Int.natAbs_natCast]
  exact ⟨Int.natCast_nonneg _, Bytes.ofBigEndian_lt field, Bytes.bigEndian_ofBigEndian field⟩

end Integer
end Signet
