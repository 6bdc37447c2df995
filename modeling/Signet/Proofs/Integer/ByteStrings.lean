import Mathlib
import Signet.Proofs.Integer.Data

/-! Integers and byte strings, exactly. A byte string is read as the number that it holds, and the
number is written without the leading zeros; a field is filled with zeros in front of the number or
left as it was, and what is read from a field comes from its own bytes and from all of them. The
bytes of a number are those of its words, each with its lowest byte first, put into a row of zeros
from behind, which may end within a word. Main statements: `putWords_zeros`, `toBytes_ofBytes`,
`toBytes_data`, `writeInto_data`, `save_data` and `byteStrings_exact`. -/
namespace Signet

namespace Bytes

/-- Overwrites bytes from the front by others, as far as there are both. -/
def overwrite : Bytes → Bytes → Bytes
  | b :: source, _ :: rest => b :: overwrite source rest
  | _, rest => rest

theorem overwrite_littleEndian {width : ℕ} {rest : Bytes} (n : ℕ) (h : rest.length ≤ width) :
    overwrite (littleEndian width n) rest = littleEndian rest.length n := by
  induction rest generalizing width n with
  | nil => cases width <;> rfl
  | cons b rest ih =>
    cases width with
    | zero => exact absurd h (Nat.not_succ_le_zero _)
    | succ width =>
      rw [littleEndian, overwrite, ih _ (Nat.succ_le_succ_iff.mp h), List.length_cons, littleEndian]

theorem littleEndian_add (a b n : ℕ) :
    littleEndian (a + b) n = littleEndian a n ++ littleEndian b (n / 256 ^ a) := by
  induction a generalizing n with
  | zero => rw [zero_add, pow_zero, Nat.div_one, littleEndian, List.nil_append]
  | succ a ih =>
    rw [Nat.succ_add, littleEndian, ih, littleEndian, List.cons_append, Nat.div_div_eq_div_mul,
      pow_succ']

/-- Bytes know a number up to the numbers that they have no place for. -/
theorem littleEndian_mod (width n : ℕ) :
    littleEndian width (n % 256 ^ width) = littleEndian width n := by
  have h := littleEndian_ofLittleEndian (littleEndian width n)
  rwa [length_littleEndian, ofLittleEndian_littleEndian] at h

theorem littleEndian_zero (width : ℕ) : littleEndian width 0 = zeros width := by
  have h := littleEndian_ofLittleEndian (zeros width)
  rwa [length_zeros, ofLittleEndian_zeros] at h

end Bytes

namespace Magnitude

open Bytes (littleEndian zeros overwrite)

/-- Puts the bytes of words over other bytes, the lowest first. What does not find a place there is
left out, also where that is within a word. -/
def putWords : Magnitude → Bytes → Bytes
  | zero, rest => rest
  | word low high, rest =>
    overwrite (littleEndian 8 low.toNat) (rest.take 8) ++ putWords high (rest.drop 8)

/-- A word is the lowest eight bytes of the number, or as many of them as there is place for. -/
theorem littleEndian_lowWord {width : ℕ} (h : width ≤ 8) (low : UInt64) (high : Magnitude) :
    littleEndian width (word low high).toNat = littleEndian width low.toNat := by
  have hpow : 2 ^ 64 = 256 ^ width * 256 ^ (8 - width) := by
    rw [← pow_add, show width + (8 - width) = 8 by omega]
    norm_num
  rw [← Bytes.littleEndian_mod, toNat, hpow, mul_assoc, Nat.add_mul_mod_self_left,
    Bytes.littleEndian_mod]

theorem putWords_zeros (m : Magnitude) (count : ℕ) :
    putWords m (zeros count) = littleEndian count m.toNat := by
  induction m generalizing count with
  | zero => rw [putWords, toNat, Bytes.littleEndian_zero]
  | word low high ih =>
    have htake : (zeros count).take 8 = zeros (min 8 count) := List.take_replicate ..
    have hdrop : (zeros count).drop 8 = zeros (count - 8) := List.drop_replicate ..
    have hlow := Bytes.overwrite_littleEndian low.toNat
      ((Bytes.length_zeros (min 8 count)).trans_le (min_le_left 8 count))
    rw [Bytes.length_zeros] at hlow
    rw [putWords, htake, hdrop, ih, hlow, ← littleEndian_lowWord (min_le_left 8 count) low high]
    rcases le_total 8 count with hlong | hshort
    · have hhigh : (word low high).toNat / 256 ^ 8 = high.toNat := by
        have := low.toNat_lt
        rw [toNat]
        omega
      rw [min_eq_left hlong, ← hhigh, ← Bytes.littleEndian_add, Nat.add_sub_cancel' hlong]
    · rw [min_eq_right hshort, Nat.sub_eq_zero_of_le hshort]
      exact List.append_nil _

end Magnitude

namespace Integer

open Magnitude (putWords)

namespace Data

/-- The number of bytes as the top word tells it. -/
def byteCount (s : Data) : ℕ := (s.words.topBits + 7) / 8

/-- The words in a field of zeros, from behind. -/
def fill (s : Data) (length : ℕ) : Bytes := (putWords s.words (Bytes.zeros length)).reverse

def toBytes (s : Data) : Bytes := s.fill s.byteCount

def writeInto (s : Data) (buffer : Bytes) : Except Error Unit × Bytes :=
  if s.byteCount > buffer.length then (.error .malformed, buffer)
  else (.ok (), s.fill buffer.length)

def save (s : Data) (maxBits minBits : ℕ) : Except Error Bytes :=
  if maxBits % 8 ≠ 0 || minBits % 8 ≠ 0 || minBits > maxBits then .error .invalidParameter
  else if s.words.topBits > maxBits then .error .malformed
  else .ok (s.fill (max s.byteCount (minBits / 8)))

end Data

section Octets

variable (x : Integer)

theorem length_toBytes : x.toBytes.length = (x.bits + 7) / 8 := by
  refine eq_of_forall_ge_iff fun width => ?_
  rw [length_toBytes_le_iff, Bytes.pow_eq, ← bits_le_iff]
  omega

/-- A number that is read from bytes is written without their leading zeros. -/
theorem toBytes_ofBytes (bytes : Bytes) : (ofBytes bytes).toBytes = bytes.dropWhile (· = 0) := by
  have hsmall : ∀ d ∈ bytes.map UInt8.toNat, d < 256 := by
    intro d hd
    obtain ⟨b, -, rfl⟩ := List.mem_map.mp hd
    exact b.toNat_lt
  have hdigits : (ofBytes bytes).magnitude.toDigits 256 =
      (bytes.map UInt8.toNat).dropWhile (· = 0) := by
    rw [Magnitude.toDigits_eq_digits (by norm_num), toNat_magnitude, toInt_ofBytes,
      Int.natAbs_natCast, Bytes.ofBigEndian, Bytes.ofLittleEndian_eq_ofDigits, List.map_reverse,
      Magnitude.digits_ofDigits_reverse (by norm_num) hsmall]
  have hzero : (fun d : ℕ => decide (d = 0)) ∘ UInt8.toNat = fun b => decide (b = 0) := by
    funext b
    exact decide_eq_decide.mpr (show b.toNat = (0 : UInt8).toNat ↔ b = 0 from UInt8.toNat_inj)
  have hback : UInt8.ofNat ∘ UInt8.toNat = id := funext fun b => UInt8.ofNat_toNat
  rw [toBytes, hdigits, List.dropWhile_map, List.map_map, hzero, hback, List.map_id]

theorem fill_data {length : ℕ} (h : (x.bits + 7) / 8 ≤ length) :
    x.data.fill length = Bytes.zeros (length - x.toBytes.length) ++ x.toBytes := by
  have hlt : x.toInt.natAbs < 256 ^ length := by
    rwa [← length_toBytes_le_iff, length_toBytes]
  rw [zeros_append_toBytes x hlt, Data.fill, Magnitude.putWords_zeros, ← toNat_magnitude]
  rfl

theorem topBits_data : x.data.words.topBits = x.bits := Magnitude.topBits_eq x.normal

theorem byteCount_data : x.data.byteCount = x.toBytes.length := by
  rw [Data.byteCount, topBits_data, length_toBytes]

theorem toBytes_data : x.data.toBytes = x.toBytes := by
  rw [Data.toBytes, byteCount_data, fill_data x (x.length_toBytes.ge), Nat.sub_self]
  rfl

theorem writeInto_data (buffer : Bytes) : x.data.writeInto buffer = x.writeInto buffer := by
  rw [Data.writeInto, writeInto, toFixedBytes, byteCount_data]
  split_ifs with h
  · rfl
  · rw [fill_data x (x.length_toBytes ▸ not_lt.mp h)]

theorem save_data (maxBits minBits : ℕ) :
    x.data.save maxBits minBits = x.save maxBits minBits := by
  rw [Data.save, save, byteCount_data, topBits_data]
  split_ifs
  · rfl
  · rfl
  · have hlong : (x.bits + 7) / 8 ≤ max x.toBytes.length (minBits / 8) :=
      x.length_toBytes.ge.trans (le_max_left _ _)
    rw [fill_data x hlong]
    congr 3
    omega

/-- Widths of a field for a number: whole bytes, and the least no more than the most. -/
def Widths (maxBits minBits : ℕ) : Prop := maxBits % 8 = 0 ∧ minBits % 8 = 0 ∧ minBits ≤ maxBits

instance (maxBits minBits : ℕ) : Decidable (Widths maxBits minBits) :=
  inferInstanceAs (Decidable (_ ∧ _ ∧ _))

variable {x}

theorem save_of_not_widths {maxBits minBits : ℕ} (h : ¬Widths maxBits minBits) :
    x.save maxBits minBits = .error .invalidParameter := by
  have hguard : (maxBits % 8 ≠ 0 || minBits % 8 ≠ 0 || minBits > maxBits) = true := by
    rw [Widths] at h
    simp only [Bool.or_eq_true, decide_eq_true_eq]
    omega
  rw [save, if_pos hguard]

theorem save_of_widths {maxBits minBits : ℕ} (h : Widths maxBits minBits) :
    x.save maxBits minBits =
      if x.bits > maxBits then .error .malformed
      else .ok (Bytes.zeros (minBits / 8 - x.toBytes.length) ++ x.toBytes) := by
  have hguard : ¬(maxBits % 8 ≠ 0 || minBits % 8 ≠ 0 || minBits > maxBits) = true := by
    rw [Widths] at h
    simp only [Bool.or_eq_true, decide_eq_true_eq]
    omega
  rw [save, if_neg hguard]

/-- A number is saved exactly in widths that are widths and that it does not exceed. -/
theorem save_eq_ok_iff {maxBits minBits : ℕ} {bytes : Bytes} :
    x.save maxBits minBits = .ok bytes ↔
      (Widths maxBits minBits ∧ x.bits ≤ maxBits) ∧
        bytes = Bytes.zeros (minBits / 8 - x.toBytes.length) ++ x.toBytes := by
  constructor
  · intro h
    have hwidths : Widths maxBits minBits := by
      by_contra hother
      rw [save_of_not_widths hother] at h
      cases h
    rw [save_of_widths hwidths] at h
    split at h
    · cases h
    · next hfits => exact ⟨⟨hwidths, not_lt.mp hfits⟩, (Except.ok.inj h).symm⟩
  · rintro ⟨⟨hwidths, hfits⟩, rfl⟩
    rw [save_of_widths hwidths, if_neg (not_lt.mpr hfits)]

/-- Zeros in front of a number are read as the number. -/
theorem load_zeros_append (count : ℕ)
    (hmax : 8 * (Bytes.zeros count ++ x.toBytes).length ≤ maxBits) :
    load (Bytes.zeros count ++ x.toBytes) (8 * (Bytes.zeros count ++ x.toBytes).length) =
      .ok x.abs := by
  have hlength := Nat.mul_div_cancel_left (Bytes.zeros count ++ x.toBytes).length
    (by norm_num : 0 < 8)
  rw [load_eq_ok (Nat.mul_mod_right 8 _) hmax hlength.le, hlength, List.take_length]
  congr 1
  rw [← toInt_inj, toInt_ofBytes, Bytes.ofBigEndian_zeros_append, ofBigEndian_toBytes, toInt_abs]

/-- Only the bytes of the field count, also for what is refused. -/
theorem load_congr {bytes other : Bytes} {width : ℕ}
    (h : other.take (width / 8) = bytes.take (width / 8)) : load other width = load bytes width := by
  have hlength := congrArg List.length h
  rw [List.length_take, List.length_take] at hlength
  have hshort : other.length < width / 8 ↔ bytes.length < width / 8 := by omega
  rw [load, load, h]
  simp only [hshort]

/-- The bytes of a field are those of the number that is read from it. -/
theorem take_eq_of_load {bytes : Bytes} {width : ℕ} (h : load bytes width = .ok x) :
    bytes.take (width / 8) = Bytes.bigEndian (width / 8) x.toInt.natAbs := by
  obtain ⟨⟨-, -, hlength⟩, rfl⟩ := load_eq_ok_iff.mp h
  refine Bytes.eq_bigEndian (List.length_take_of_le hlength) ?_
  rw [toInt_ofBytes, Int.natAbs_natCast]

theorem writeInto_of_le {buffer : Bytes} (h : (x.bits + 7) / 8 ≤ buffer.length) :
    x.writeInto buffer =
      (.ok (), Bytes.zeros (buffer.length - (x.bits + 7) / 8) ++ x.toBytes) := by
  rw [writeInto, toFixedBytes, length_toBytes, if_neg (not_lt.mpr h)]

theorem writeInto_of_lt {buffer : Bytes} (h : buffer.length < (x.bits + 7) / 8) :
    x.writeInto buffer = (.error .malformed, buffer) := by
  rw [writeInto, toFixedBytes, length_toBytes, if_pos h]

/-- Byte strings and integers, exactly. A byte string is read as its number and written without
leading zeros. An integer is saved in widths that it fits, as zeros and its bytes, and is read back
as its absolute value. A buffer is filled, zeros first, or kept. A field is read from its own bytes
and from all of them. The loops over words and bytes give the same bytes. -/
theorem byteStrings_exact :
    (∀ bytes : Bytes, (ofBytes bytes).toInt = Bytes.ofBigEndian bytes ∧
      (ofBytes bytes).toBytes = bytes.dropWhile (· = 0)) ∧
    (∀ (x : Integer) (maxWidth minWidth : ℕ),
      ((∃ bytes, x.save maxWidth minWidth = .ok bytes) ↔
        Widths maxWidth minWidth ∧ x.bits ≤ maxWidth) ∧
      (∀ bytes, x.save maxWidth minWidth = .ok bytes →
        bytes.length = max ((x.bits + 7) / 8) (minWidth / 8) ∧
        (8 * bytes.length ≤ maxBits → load bytes (8 * bytes.length) = .ok x.abs)) ∧
      (Widths maxWidth minWidth → maxWidth < x.bits →
        x.save maxWidth minWidth = .error .malformed) ∧
      (¬Widths maxWidth minWidth → x.save maxWidth minWidth = .error .invalidParameter)) ∧
    (∀ (x : Integer) (buffer : Bytes),
      ((x.bits + 7) / 8 ≤ buffer.length →
        ∃ bytes, x.writeInto buffer = (.ok (), bytes) ∧ bytes.length = buffer.length ∧
          bytes = Bytes.zeros (buffer.length - (x.bits + 7) / 8) ++ x.toBytes ∧
          Bytes.ofBigEndian bytes = x.toInt.natAbs) ∧
      (buffer.length < (x.bits + 7) / 8 → x.writeInto buffer = (.error .malformed, buffer))) ∧
    (∀ (bytes : Bytes) (width : ℕ),
      ((∃ x, load bytes width = .ok x) ↔
        width % 8 = 0 ∧ width ≤ maxBits ∧ width / 8 ≤ bytes.length) ∧
      (∀ x, load bytes width = .ok x →
        x.toInt = Bytes.ofBigEndian (bytes.take (width / 8)) ∧
        bytes.take (width / 8) = Bytes.bigEndian (width / 8) x.toInt.natAbs) ∧
      ∀ other : Bytes, other.take (width / 8) = bytes.take (width / 8) →
        load other width = load bytes width) ∧
    (∀ bytes : Bytes, (ofBytes bytes).data = Data.ofBytes bytes ∧
      ∀ width, (load bytes width).map data = Data.load bytes width) ∧
    ∀ x : Integer, x.data.toBytes = x.toBytes ∧
      (∀ buffer, x.data.writeInto buffer = x.writeInto buffer) ∧
      ∀ maxWidth minWidth, x.data.save maxWidth minWidth = x.save maxWidth minWidth := by
  refine ⟨fun bytes => ⟨toInt_ofBytes bytes, toBytes_ofBytes bytes⟩,
    fun x maxWidth minWidth => ⟨?_, fun bytes h => ?_, fun hwidths hwide => ?_,
      save_of_not_widths⟩,
    fun x buffer => ⟨fun hfits => ?_, writeInto_of_lt⟩,
    fun bytes width => ⟨?_, fun x h => ⟨?_, take_eq_of_load h⟩, fun other => load_congr⟩,
    fun bytes => ⟨data_ofBytes bytes, data_load bytes⟩, fun x => ⟨toBytes_data x, writeInto_data x, save_data x⟩⟩
  · simp only [save_eq_ok_iff, exists_and_left, exists_eq, and_true]
  · obtain ⟨-, rfl⟩ := save_eq_ok_iff.mp h
    refine ⟨?_, load_zeros_append _⟩
    rw [List.length_append, Bytes.length_zeros, length_toBytes]
    omega
  · rw [save_of_widths hwidths, if_pos hwide]
  · refine ⟨_, writeInto_of_le hfits, ?_, rfl, ?_⟩
    · rw [List.length_append, Bytes.length_zeros, length_toBytes]
      omega
    · rw [Bytes.ofBigEndian_zeros_append, ofBigEndian_toBytes]
  · simp only [load_eq_ok_iff, exists_and_left, exists_eq, and_true]
  · rw [(load_eq_ok_iff.mp h).2, toInt_ofBytes]

/-- A number of two words, whose nine bytes end within the second: too wide for eight bytes, saved
in ten, and put behind two zeros in eleven. Two bytes out of three are read from a field of two. -/
theorem byteStrings_exact_sample :
    (ofBytes [1, 0, 0, 0, 0, 0, 0, 0, 2]).save 64 8 = .error .malformed ∧
    (ofBytes [1, 0, 0, 0, 0, 0, 0, 0, 2]).save 12 8 = .error .invalidParameter ∧
    (∃ bytes, (ofBytes [1, 0, 0, 0, 0, 0, 0, 0, 2]).save 80 80 = .ok bytes ∧ bytes.length = 10 ∧
      load bytes 80 = .ok (ofBytes [1, 0, 0, 0, 0, 0, 0, 0, 2]).abs) ∧
    (∃ bytes, (ofBytes [1, 0, 0, 0, 0, 0, 0, 0, 2]).writeInto (List.replicate 11 255) =
      (.ok (), bytes) ∧ bytes = [0, 0, 1, 0, 0, 0, 0, 0, 0, 0, 2]) ∧
    (ofBytes [1, 0, 0, 0, 0, 0, 0, 0, 2]).writeInto (List.replicate 8 255) =
      (.error .malformed, List.replicate 8 255) ∧
    load [1, 2, 3] 16 = load [1, 2] 16 := by
  have hbits : (ofBytes [1, 0, 0, 0, 0, 0, 0, 0, 2]).bits = 65 := by decide +kernel
  obtain ⟨hbytes, hsave, hwrite, hload, -⟩ := byteStrings_exact
  have hout := (hbytes [1, 0, 0, 0, 0, 0, 0, 0, 2]).2
  obtain ⟨bytes, hok⟩ := (hsave _ 80 80).1.mpr ⟨by decide, hbits.trans_le (by decide)⟩
  obtain ⟨hlength, hback⟩ := (hsave _ 80 80).2.1 bytes hok
  have hlength : bytes.length = 10 := by rw [hlength, hbits]; rfl
  refine ⟨(hsave _ 64 8).2.2.1 (by decide) (by rw [hbits]; decide), (hsave _ 12 8).2.2.2 (by decide),
    ⟨bytes, hok, hlength, ?_⟩, ?_, (hwrite _ _).2 (by rw [hbits]; decide),
    (hload [1, 2] 16).2.2 [1, 2, 3] rfl⟩
  · rw [hlength] at hback
    exact hback (by decide)
  · obtain ⟨bytes, hok, -, heq, -⟩ := (hwrite _ (List.replicate 11 255)).1 (by rw [hbits]; decide)
    exact ⟨bytes, hok, by rw [heq, hout, hbits]; decide⟩

end Octets
end Integer
end Signet
