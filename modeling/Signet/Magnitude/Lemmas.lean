import Signet.Magnitude.Division
/-!
What the operations on magnitudes do to the numbers that they stand for. Main statements:
`toNat_add`, `toNat_sub`, `toNat_mul`, `compare_eq`, `lt_two_pow_iff`, `testBit_eq` and
`toNat_divMod`, each for words of any kind, in normal form or not.
-/
namespace Signet.Magnitude

open scoped Powers

theorem toNat_toUInt64 (b : Bool) : b.toUInt64.toNat = b.toNat := by
  cases b <;> decide

/-- A wrapped sum is less than an addend exactly when a carry is lost. -/
theorem word_add_carry (x y : UInt64) :
    (x + y).toNat + 2 ^ 64 * (decide (x + y < x)).toNat = x.toNat + y.toNat := by
  have hx := x.toNat_lt
  have hy := y.toNat_lt
  have hs := UInt64.toNat_add x y
  by_cases h : x + y < x
  · have hn := UInt64.lt_iff_toNat_lt.mp h
    simp only [h, decide_true, Bool.toNat_true]
    omega
  · have hn := mt UInt64.lt_iff_toNat_lt.mpr h
    simp only [h, decide_false, Bool.toNat_false]
    omega

/-- A wrapped difference is short of the true one exactly when it borrows. -/
theorem word_sub_borrow (x y : UInt64) :
    (x - y).toNat + y.toNat = x.toNat + 2 ^ 64 * (decide (x < y)).toNat := by
  have hx := x.toNat_lt
  have hy := y.toNat_lt
  have hs := UInt64.toNat_sub x y
  by_cases h : x < y
  · have hn := UInt64.lt_iff_toNat_lt.mp h
    simp only [h, decide_true, Bool.toNat_true]
    omega
  · have hn := mt UInt64.lt_iff_toNat_lt.mpr h
    simp only [h, decide_false, Bool.toNat_false]
    omega

theorem toNat_addWord (m : Magnitude) (w : UInt64) :
    (m.addWord w).toNat = m.toNat + w.toNat := by
  induction m generalizing w with
  | zero => rw [addWord, toNat_ofWord, toNat, Nat.zero_add]
  | word low high ih =>
    have h := word_add_carry low w
    rw [addWord, toNat_push, ih, toNat, toNat_toUInt64]
    omega

/-- The two carries of a sum of two words and a carry never both occur. -/
theorem toNat_or_carry (x y : UInt64) (c : Bool) :
    (decide (x + y < x) || decide (x + y + c.toUInt64 < x + y)).toNat =
      (decide (x + y < x)).toNat + (decide (x + y + c.toUInt64 < x + y)).toNat := by
  have h1 := word_add_carry x y
  have h2 := word_add_carry (x + y) c.toUInt64
  have hx := x.toNat_lt
  have hy := y.toNat_lt
  have ht := (x + y + c.toUInt64).toNat_lt
  have hc : c.toUInt64.toNat ≤ 1 := by rw [toNat_toUInt64]; exact Bool.toNat_le c
  cases ha : decide (x + y < x) <;> cases hb : decide (x + y + c.toUInt64 < x + y) <;>
    simp_all only [Bool.toNat_true, Bool.toNat_false, Bool.or_true, Bool.or_false, Nat.zero_add,
      Nat.add_zero]
  omega

theorem toNat_addCarry (a b : Magnitude) (carry : Bool) :
    (addCarry a b carry).toNat = a.toNat + b.toNat + carry.toNat := by
  induction a generalizing b carry with
  | zero => rw [addCarry, toNat_addWord, toNat_toUInt64, toNat, Nat.zero_add]
  | word x xs ih =>
    have h1 := word_add_carry x b.lowWord
    have h2 := word_add_carry (x + b.lowWord) carry.toUInt64
    rw [toNat_toUInt64] at h2
    rw [addCarry, toNat_push, ih, toNat_or_carry, toNat, toNat_eq_lowWord_add b]
    omega

theorem toNat_add (a b : Magnitude) : (a.add b).toNat = a.toNat + b.toNat := by
  rw [add, toNat_addCarry]
  rfl

/-- The two borrows of a difference of two words and a borrow never both occur. -/
theorem toNat_or_borrow (x y : UInt64) (c : Bool) :
    (decide (x < y) || decide (x - y < c.toUInt64)).toNat =
      (decide (x < y)).toNat + (decide (x - y < c.toUInt64)).toNat := by
  have h1 := word_sub_borrow x y
  have h2 := word_sub_borrow (x - y) c.toUInt64
  have hx := x.toNat_lt
  have hy := y.toNat_lt
  have ht := (x - y - c.toUInt64).toNat_lt
  have hc : c.toUInt64.toNat ≤ 1 := by rw [toNat_toUInt64]; exact Bool.toNat_le c
  cases ha : decide (x < y) <;> cases hb : decide (x - y < c.toUInt64) <;>
    simp_all only [Bool.toNat_true, Bool.toNat_false, Bool.or_true, Bool.or_false, Nat.zero_add,
      Nat.add_zero]
  omega

theorem toNat_subBorrow (a b : Magnitude) (borrow : Bool)
    (h : b.toNat + borrow.toNat ≤ a.toNat) :
    (subBorrow a b borrow).toNat + b.toNat + borrow.toNat = a.toNat := by
  induction a generalizing b borrow with
  | zero =>
    rw [toNat] at h
    rw [subBorrow, toNat]
    omega
  | word x xs ih =>
    have h1 := word_sub_borrow x b.lowWord
    have h2 := word_sub_borrow (x - b.lowWord) borrow.toUInt64
    have hx := x.toNat_lt
    have ht := (x - b.lowWord - borrow.toUInt64).toNat_lt
    have hor := toNat_or_borrow x b.lowWord borrow
    rw [toNat_toUInt64] at h2
    rw [toNat, toNat_eq_lowWord_add b] at h
    have hrest := ih b.rest
      (decide (x < b.lowWord) || decide (x - b.lowWord < borrow.toUInt64)) (by omega)
    rw [subBorrow, toNat_push, toNat, toNat_eq_lowWord_add b]
    omega

/-- Nothing is lost in a difference whose second number is at most the first. -/
theorem toNat_sub (a b : Magnitude) (h : b.toNat ≤ a.toNat) :
    (a.sub b).toNat = a.toNat - b.toNat := by
  have hs := toNat_subBorrow a b false (by simpa using h)
  rw [Bool.toNat_false] at hs
  rw [sub]
  omega

theorem toNat_ofNat_mod (n : Nat) : (UInt64.ofNat n).toNat = n % 2 ^ 64 := by
  rw [UInt64.toNat_ofNat']

theorem wordProduct_split (x y addend carry : UInt64) :
    (UInt64.ofNat (wordProduct x y addend carry)).toNat +
        2 ^ 64 * (UInt64.ofNat (wordProduct x y addend carry >>> 64)).toNat =
      x.toNat * y.toNat + addend.toNat + carry.toNat := by
  have h := wordProduct_lt x y addend carry
  rw [toNat_ofNat_mod, toNat_ofNat_mod, Nat.shiftRight_eq_div_pow,
    Nat.mod_eq_of_lt (show wordProduct x y addend carry / 2 ^ 64 < 2 ^ 64 by omega)]
  have he : wordProduct x y addend carry = x.toNat * y.toNat + addend.toNat + carry.toNat := rfl
  omega

theorem toNat_mulAdd (x : UInt64) (b addend : Magnitude) (carry : UInt64) :
    (mulAdd x b addend carry).toNat = x.toNat * b.toNat + addend.toNat + carry.toNat := by
  induction b generalizing addend carry with
  | zero => rw [mulAdd, toNat_addWord, toNat, Nat.mul_zero, Nat.zero_add]
  | word y ys ih =>
    have h := wordProduct_split x y addend.lowWord carry
    have hx : x.toNat * (y.toNat + 2 ^ 64 * ys.toNat) =
        x.toNat * y.toNat + 2 ^ 64 * (x.toNat * ys.toNat) := by
      rw [Nat.mul_add, Nat.mul_left_comm]
    rw [mulAdd, toNat_push, ih, toNat_eq_lowWord_add addend, toNat, hx]
    omega

theorem toNat_mulRows (a b addend : Magnitude) :
    (mulRows a b addend).toNat = addend.toNat + a.toNat * b.toNat := by
  induction a generalizing addend with
  | zero => rw [mulRows, toNat, Nat.zero_mul, Nat.add_zero]
  | word x xs ih =>
    have h := toNat_mulAdd x b addend 0
    rw [toNat_eq_lowWord_add, UInt64.toNat_zero] at h
    rw [mulRows, toNat_push, ih, toNat, Nat.add_mul, Nat.mul_assoc]
    omega

theorem toNat_mul (a b : Magnitude) : (a.mul b).toNat = a.toNat * b.toNat := by
  rw [mul, toNat_mulRows, toNat, Nat.zero_add]

theorem toNat_mulAddWord (m : Magnitude) (factor addend : UInt64) :
    (m.mulAddWord factor addend).toNat = m.toNat * factor.toNat + addend.toNat := by
  rw [mulAddWord, toNat_mulAdd, toNat, Nat.add_zero, Nat.mul_comm]

theorem toNat_shiftWords (count : Nat) (m : Magnitude) :
    (shiftWords count m).toNat = m.toNat * 2 ^ (64 * count) := by
  induction count with
  | zero => rw [shiftWords, Nat.mul_zero, Nat.pow_zero, Nat.mul_one]
  | succ count ih =>
    cases m with
    | zero => rw [shiftWords, toNat, Nat.zero_mul]
    | word low high =>
      rw [shiftWords, toNat_push, ih, UInt64.toNat_zero, Nat.zero_add, Nat.mul_succ, Nat.pow_add,
        Nat.mul_left_comm, Nat.mul_comm (2 ^ 64)]

theorem toNat_shiftLeft (m : Magnitude) (count : Nat) :
    (m.shiftLeft count).toNat = m.toNat * 2 ^ count := by
  have hlt : 2 ^ (count % 64) < 2 ^ 64 := Nat.pow_lt_pow_right (by omega) (by omega)
  rw [shiftLeft, toNat_shiftWords, toNat_mulAddWord, toNat_ofNat_mod, Nat.mod_eq_of_lt hlt,
    UInt64.toNat_zero, Nat.add_zero, Nat.mul_assoc, ← Nat.pow_add,
    show count % 64 + 64 * (count / 64) = count by omega]

theorem isZero_iff (m : Magnitude) : m.isZero = true ↔ m.toNat = 0 := by
  induction m with
  | zero => simp [isZero, toNat]
  | word low high ih =>
    have hl : (low == 0) = true ↔ low.toNat = 0 := by
      rw [beq_iff_eq, ← UInt64.toNat_inj, UInt64.toNat_zero]
    rw [isZero, Bool.and_eq_true, hl, ih, toNat]
    omega

theorem compareWord_eq (x y : UInt64) : compareWord x y = Ord.compare x.toNat y.toNat := by
  unfold compareWord
  by_cases h : x < y
  · rw [if_pos h, Nat.compare_eq_lt.mpr (UInt64.lt_iff_toNat_lt.mp h)]
  · by_cases h' : y < x
    · rw [if_neg h, if_pos h', Nat.compare_eq_gt.mpr (UInt64.lt_iff_toNat_lt.mp h')]
    · have h1 := mt UInt64.lt_iff_toNat_lt.mpr h
      have h2 := mt UInt64.lt_iff_toNat_lt.mpr h'
      rw [if_neg h, if_neg h', Nat.compare_eq_eq.mpr (by omega)]

theorem compare_eq (a b : Magnitude) : a.compare b = Ord.compare a.toNat b.toNat := by
  induction a generalizing b with
  | zero =>
    rw [compare, toNat]
    by_cases h : b.isZero = true
    · rw [if_pos h, (isZero_iff b).mp h, Nat.compare_eq_eq.mpr rfl]
    · have hb := mt (isZero_iff b).mpr h
      rw [if_neg h, Nat.compare_eq_lt.mpr (by omega)]
  | word x xs ih =>
    cases b with
    | zero =>
      rw [compare, show toNat zero = 0 from rfl]
      by_cases h : (word x xs).isZero = true
      · rw [if_pos h, (isZero_iff _).mp h, Nat.compare_eq_eq.mpr rfl]
      · have hb := mt (isZero_iff _).mpr h
        rw [if_neg h, Nat.compare_eq_gt.mpr (by omega)]
    | word y ys =>
      have hx := x.toNat_lt
      have hy := y.toNat_lt
      rw [compare, ih, compareWord_eq, toNat, toNat]
      rcases Nat.lt_trichotomy xs.toNat ys.toNat with h | h | h
      · have hlt : x.toNat + 2 ^ 64 * xs.toNat < y.toNat + 2 ^ 64 * ys.toNat := by omega
        rw [Nat.compare_eq_lt.mpr h, Nat.compare_eq_lt.mpr hlt]
        rfl
      · rw [Nat.compare_eq_eq.mpr h, h]
        rcases Nat.lt_trichotomy x.toNat y.toNat with h' | h' | h'
        · rw [Nat.compare_eq_lt.mpr h', Nat.compare_eq_lt.mpr (Nat.add_lt_add_right h' _)]
          rfl
        · rw [h', Nat.compare_eq_eq.mpr rfl, Nat.compare_eq_eq.mpr rfl]
          rfl
        · rw [Nat.compare_eq_gt.mpr h', Nat.compare_eq_gt.mpr (Nat.add_lt_add_right h' _)]
          rfl
      · have hgt : y.toNat + 2 ^ 64 * ys.toNat < x.toNat + 2 ^ 64 * xs.toNat := by omega
        rw [Nat.compare_eq_gt.mpr h, Nat.compare_eq_gt.mpr hgt]
        rfl

theorem word_lt_two_pow_iff (w : UInt64) (k : Nat) : w.toNat < 2 ^ k ↔ wordBits w ≤ k := by
  unfold wordBits
  by_cases h : w = 0
  · rw [if_pos h, h, UInt64.toNat_zero]
    exact ⟨fun _ => Nat.zero_le k, fun _ => Nat.two_pow_pos k⟩
  · have hw : w.toNat ≠ 0 := fun hz => h (UInt64.toNat_inj.mp (by rw [hz, UInt64.toNat_zero]))
    rw [if_neg h, show w.log2.toNat = w.toNat.log2 from rfl, Nat.succ_le_iff, Nat.log2_lt hw]

theorem bits_eq_zero_iff (m : Magnitude) : m.bits = 0 ↔ m.toNat = 0 := by
  induction m with
  | zero => simp [bits, toNat]
  | word low high ih =>
    have hw := word_lt_two_pow_iff low 0
    rw [Nat.pow_zero] at hw
    simp only [bits, toNat]
    by_cases h : high.bits = 0
    · rw [if_pos h, ih.mp h]
      omega
    · have hh := mt ih.mpr h
      rw [if_neg h]
      omega

/-- The number of binary digits is the least `k` with `m < 2 ^ k`. -/
theorem lt_two_pow_iff (m : Magnitude) (k : Nat) : m.toNat < 2 ^ k ↔ m.bits ≤ k := by
  induction m generalizing k with
  | zero =>
    rw [toNat, bits]
    exact ⟨fun _ => Nat.zero_le k, fun _ => Nat.two_pow_pos k⟩
  | word low high ih =>
    have hl := low.toNat_lt
    simp only [bits, toNat]
    by_cases h : high.bits = 0
    · rw [if_pos h, (bits_eq_zero_iff high).mp h, Nat.mul_zero, Nat.add_zero,
        word_lt_two_pow_iff]
    · have hh : high.toNat ≠ 0 := mt (bits_eq_zero_iff high).mpr h
      rw [if_neg h]
      by_cases hk : 64 ≤ k
      · obtain ⟨j, rfl⟩ := Nat.exists_eq_add_of_le hk
        have hi := ih j
        rw [Nat.pow_add]
        constructor
        · intro hlt
          have : high.toNat < 2 ^ j := by
            apply Nat.lt_of_mul_lt_mul_left (a := 2 ^ 64)
            omega
          omega
        · intro hle
          have hlt : high.toNat + 1 ≤ 2 ^ j := hi.mpr (by omega)
          have := Nat.mul_le_mul_left (2 ^ 64) hlt
          omega
      · have hp : 2 ^ k ≤ 2 ^ 64 := Nat.pow_le_pow_right (by omega) (by omega)
        constructor
        · intro hlt
          omega
        · intro hle
          omega

theorem testBit_eq (m : Magnitude) (place : Nat) : m.testBit place = m.toNat.testBit place := by
  induction m generalizing place with
  | zero => rw [testBit, toNat, Nat.zero_testBit]
  | word low high ih =>
    have hl := low.toNat_lt
    rw [testBit, toNat, Nat.add_comm, Nat.testBit_two_pow_mul_add _ hl]
    by_cases h : place < 64
    · rw [if_pos h, if_pos h, Nat.testBit, Bool.eq_iff_iff, beq_iff_eq, ← UInt64.toNat_inj,
        UInt64.toNat_and, UInt64.toNat_shiftRight, toNat_ofNat_mod, UInt64.toNat_one, bne_iff_ne,
        show place % 2 ^ 64 % 64 = place by omega, Nat.and_comm 1, Nat.and_one_is_mod]
      generalize low.toNat >>> place = n
      omega
    · rw [if_neg h, if_neg h, ih]

theorem toNat_shiftRight_one (w : UInt64) : (w >>> 1).toNat = w.toNat / 2 := by
  rw [UInt64.toNat_shiftRight, UInt64.toNat_one, Nat.one_mod, Nat.shiftRight_eq_div_pow, Nat.pow_one]

theorem toNat_shiftLeft_top (w : UInt64) : (w <<< 63).toNat = 2 ^ 63 * (w.toNat % 2) := by
  rw [UInt64.toNat_shiftLeft, show (63 : UInt64).toNat % 64 = 63 from rfl, Nat.shiftLeft_eq]
  omega

theorem toNat_halve (m : Magnitude) : m.halve.toNat = m.toNat / 2 := by
  induction m with
  | zero => rfl
  | word low high ih =>
    have hl := low.toNat_lt
    have hh := toNat_eq_lowWord_add high
    have hor : ((low >>> 1) ||| (high.lowWord <<< 63)).toNat =
        2 ^ 63 * (high.lowWord.toNat % 2) + low.toNat / 2 := by
      rw [Nat.two_pow_add_eq_or_of_lt (show low.toNat / 2 < 2 ^ 63 by omega), UInt64.toNat_or,
        toNat_shiftRight_one, toNat_shiftLeft_top, Nat.or_comm]
    rw [halve, toNat_push, ih, hor, toNat]
    omega

theorem toNat_one_shiftLeft {place : Nat} (h : place < 64) :
    ((1 : UInt64) <<< UInt64.ofNat place).toNat = 2 ^ place := by
  rw [UInt64.toNat_shiftLeft, toNat_ofNat_mod, UInt64.toNat_one,
    show place % 2 ^ 64 % 64 = place by omega, Nat.shiftLeft_eq, Nat.one_mul]
  exact Nat.mod_eq_of_lt (Nat.pow_lt_pow_right (by omega) h)

theorem testBit_setBit (m : Magnitude) (place i : Nat) :
    (m.setBit place).toNat.testBit i = (decide (i = place) || m.toNat.testBit i) := by
  induction m generalizing place i with
  | zero =>
    rw [setBit, toNat_shiftWords, toNat_ofWord, toNat_one_shiftLeft (by omega), ← Nat.pow_add,
      show place % 64 + 64 * (place / 64) = place by omega, Nat.testBit_two_pow, toNat,
      Nat.zero_testBit, Bool.or_false]
    exact decide_eq_decide.mpr eq_comm
  | word low high ih =>
    have hl := low.toNat_lt
    rw [setBit]
    by_cases h : place < 64
    · have hw := (low ||| ((1 : UInt64) <<< UInt64.ofNat place)).toNat_lt
      rw [if_pos h, toNat_push, toNat, Nat.add_comm, Nat.testBit_two_pow_mul_add _ hw,
        Nat.add_comm low.toNat, Nat.testBit_two_pow_mul_add _ hl]
      by_cases hi : i < 64
      · rw [if_pos hi, if_pos hi, UInt64.toNat_or, toNat_one_shiftLeft h, Nat.testBit_or,
          Nat.testBit_two_pow, Bool.or_comm]
        congr 1
        exact decide_eq_decide.mpr eq_comm
      · rw [if_neg hi, if_neg hi, decide_eq_false (by omega), Bool.false_or]
    · rw [if_neg h, toNat_push, toNat, Nat.add_comm, Nat.testBit_two_pow_mul_add _ hl,
        Nat.add_comm low.toNat, Nat.testBit_two_pow_mul_add _ hl]
      by_cases hi : i < 64
      · rw [if_pos hi, if_pos hi, decide_eq_false (by omega), Bool.false_or]
      · rw [if_neg hi, if_neg hi, ih]
        congr 1
        exact decide_eq_decide.mpr (by omega)

theorem toNat_setBit (m : Magnitude) (place : Nat) :
    (m.setBit place).toNat = m.toNat ||| 2 ^ place := by
  apply Nat.eq_of_testBit_eq
  intro i
  rw [testBit_setBit, Nat.testBit_or, Nat.testBit_two_pow, Bool.or_comm]
  congr 1
  exact decide_eq_decide.mpr eq_comm

theorem testBit_clearBit (m : Magnitude) (place i : Nat) :
    (m.clearBit place).toNat.testBit i = (decide (i ≠ place) && m.toNat.testBit i) := by
  induction m generalizing place i with
  | zero => rw [clearBit, toNat, Nat.zero_testBit, Bool.and_false]
  | word low high ih =>
    have hl := low.toNat_lt
    rw [clearBit]
    by_cases h : place < 64
    · have hw := (low &&& ~~~((1 : UInt64) <<< UInt64.ofNat place)).toNat_lt
      rw [if_pos h, toNat_push, toNat, Nat.add_comm, Nat.testBit_two_pow_mul_add _ hw,
        Nat.add_comm low.toNat, Nat.testBit_two_pow_mul_add _ hl]
      by_cases hi : i < 64
      · have hp := toNat_one_shiftLeft h
        have hpl := ((1 : UInt64) <<< UInt64.ofNat place).toNat_lt
        rw [if_pos hi, if_pos hi, UInt64.toNat_and, UInt64.toNat_not, Nat.testBit_and, hp,
          show UInt64.size - 1 - 2 ^ place = 2 ^ 64 - (2 ^ place + 1) by
            rw [show UInt64.size = 2 ^ 64 from rfl]; omega,
          Nat.testBit_two_pow_sub_succ (hp ▸ hpl), Nat.testBit_two_pow, decide_eq_true hi,
          Bool.true_and, Bool.and_comm]
        congr 1
        rw [← decide_not]
        exact decide_eq_decide.mpr (not_congr eq_comm)
      · rw [if_neg hi, if_neg hi, decide_eq_true (by omega), Bool.true_and]
    · rw [if_neg h, toNat_push, toNat, Nat.add_comm, Nat.testBit_two_pow_mul_add _ hl,
        Nat.add_comm low.toNat, Nat.testBit_two_pow_mul_add _ hl]
      by_cases hi : i < 64
      · rw [if_pos hi, if_pos hi, decide_eq_true (by omega), Bool.true_and]
      · rw [if_neg hi, if_neg hi, ih]
        congr 1
        exact decide_eq_decide.mpr (by omega)

theorem isOdd_iff (m : Magnitude) : m.isOdd = true ↔ m.toNat % 2 = 1 := by
  have h := toNat_eq_lowWord_add m
  rw [isOdd, beq_iff_eq, ← UInt64.toNat_inj, UInt64.toNat_and, UInt64.toNat_one,
    Nat.and_one_is_mod]
  omega

theorem toNat_clearBit_zero (m : Magnitude) :
    (m.clearBit 0).toNat = m.toNat - m.toNat % 2 := by
  have hhalf : (m.clearBit 0).toNat / 2 = m.toNat / 2 := by
    apply Nat.eq_of_testBit_eq
    intro i
    rw [Nat.testBit_div_two, Nat.testBit_div_two, testBit_clearBit,
      decide_eq_true (Nat.succ_ne_zero i), Bool.true_and]
  have hlow : (m.clearBit 0).toNat % 2 ≠ 1 := by
    have h := testBit_clearBit m 0 0
    rw [decide_eq_false (by simp), Bool.false_and, Nat.testBit_zero, decide_eq_false_iff_not] at h
    exact h
  omega

theorem toNat_setBit_zero (m : Magnitude) :
    (m.setBit 0).toNat = m.toNat + (1 - m.toNat % 2) := by
  have hhalf : (m.setBit 0).toNat / 2 = m.toNat / 2 := by
    apply Nat.eq_of_testBit_eq
    intro i
    rw [Nat.testBit_div_two, Nat.testBit_div_two, testBit_setBit,
      decide_eq_false (Nat.succ_ne_zero i), Bool.false_or]
  have hlow : (m.setBit 0).toNat % 2 = 1 := by
    have h := testBit_setBit m 0 0
    rw [decide_eq_true rfl, Bool.true_or, Nat.testBit_zero, decide_eq_true_eq] at h
    exact h
  omega

/-- The long division keeps its promise from any place on: the divisor stands at that place, the
remainder is below its double, and the quotient has no digit below it. -/
theorem toNat_divideDown (b : Nat) (hb : 0 < b) (places : Nat) (r d q : Magnitude)
    (hd : d.toNat = b * 2 ^ places / 2) (hr : r.toNat < b * 2 ^ places)
    (hq : q.toNat % 2 ^ places = 0) :
    (divideDown places r d q).1.toNat = q.toNat + r.toNat / b ∧
      (divideDown places r d q).2.toNat = r.toNat % b := by
  induction places generalizing r d q with
  | zero =>
    rw [Nat.pow_zero, Nat.mul_one] at hr
    rw [divideDown, Nat.div_eq_of_lt hr, Nat.mod_eq_of_lt hr]
    exact ⟨rfl, rfl⟩
  | succ place ih =>
    have hd' : d.toNat = b * 2 ^ place := by
      rw [hd, Nat.pow_succ, ← Nat.mul_assoc, Nat.mul_div_cancel _ (by omega)]
    have hh : d.halve.toNat = b * 2 ^ place / 2 := by rw [toNat_halve, hd']
    have hr' : r.toNat < 2 * (b * 2 ^ place) := by
      rw [Nat.pow_succ] at hr
      calc r.toNat < b * (2 ^ place * 2) := hr
        _ = 2 * (b * 2 ^ place) := by rw [← Nat.mul_assoc, Nat.mul_comm]
    have hdvd : 2 ^ place ∣ q.toNat :=
      Nat.dvd_trans (Nat.pow_dvd_pow 2 (Nat.le_succ place)) (Nat.dvd_of_mod_eq_zero hq)
    rw [divideDown, compare_eq]
    by_cases h : r.toNat < d.toNat
    · rw [if_pos (Nat.compare_eq_lt.mpr h)]
      exact ih r d.halve q hh (by omega) (Nat.mod_eq_zero_of_dvd hdvd)
    · have hne : ¬Ord.compare r.toNat d.toNat = .lt := mt Nat.compare_eq_lt.mp h
      have hs := toNat_sub r d (by omega)
      have hset : (q.setBit place).toNat = q.toNat + 2 ^ place := by
        obtain ⟨c, hc⟩ := Nat.dvd_of_mod_eq_zero hq
        rw [toNat_setBit, hc, ← Nat.two_pow_add_eq_or_of_lt
          (Nat.pow_lt_pow_right (by omega) (Nat.lt_succ_self place))]
      have hq' : (q.setBit place).toNat % 2 ^ place = 0 := by
        rw [hset, Nat.add_mod_right]
        exact Nat.mod_eq_zero_of_dvd hdvd
      obtain ⟨h1, h2⟩ := ih (r.sub d) d.halve (q.setBit place) hh (by omega) hq'
      have hsplit : r.toNat = (r.toNat - d.toNat) + b * 2 ^ place := by omega
      have hdiv : r.toNat / b = (r.toNat - d.toNat) / b + 2 ^ place := by
        rw [hsplit, Nat.add_mul_div_left _ _ hb, ← hsplit]
      have hmod : r.toNat % b = (r.toNat - d.toNat) % b := by
        rw [hsplit, Nat.add_mul_mod_self_left, ← hsplit]
      rw [if_neg hne, h1, h2, hs, hset]
      omega

theorem toNat_divMod (a b : Magnitude) (hb : b.toNat ≠ 0) :
    (a.divMod b).1.toNat = a.toNat / b.toNat ∧ (a.divMod b).2.toNat = a.toNat % b.toNat := by
  rw [divMod, compare_eq]
  by_cases h : a.toNat < b.toNat
  · rw [if_pos (Nat.compare_eq_lt.mpr h), Nat.div_eq_of_lt h, Nat.mod_eq_of_lt h]
    exact ⟨rfl, rfl⟩
  · rw [if_neg (mt Nat.compare_eq_lt.mp h)]
    have ha := (lt_two_pow_iff a a.bits).mpr (Nat.le_refl _)
    have hbits : b.bits ≤ a.bits := (lt_two_pow_iff b a.bits).mp (by omega)
    have hpos : b.bits ≠ 0 := mt (bits_eq_zero_iff b).mp hb
    have hlow : 2 ^ (b.bits - 1) ≤ b.toNat :=
      Nat.le_of_not_lt (mt (lt_two_pow_iff b (b.bits - 1)).mp (by omega))
    have hr : a.toNat < b.toNat * 2 ^ (a.bits - b.bits + 1) := by
      calc a.toNat < 2 ^ a.bits := ha
        _ = 2 ^ (b.bits - 1) * 2 ^ (a.bits - b.bits + 1) := by
          rw [← Nat.pow_add]
          congr 1
          omega
        _ ≤ _ := Nat.mul_le_mul_right _ hlow
    have hd : (b.shiftLeft (a.bits - b.bits)).toNat =
        b.toNat * 2 ^ (a.bits - b.bits + 1) / 2 := by
      rw [toNat_shiftLeft, Nat.pow_succ, ← Nat.mul_assoc, Nat.mul_div_cancel _ (by omega)]
    have := toNat_divideDown b.toNat (by omega) _ a _ zero hd hr (Nat.zero_mod _)
    rwa [show toNat zero = 0 from rfl, Nat.zero_add] at this

theorem quotient_word_lt (r d : Nat) (w : UInt64) (h : r < d) :
    (r * 2 ^ 64 + w.toNat) / d < 2 ^ 64 := by
  have hw := w.toNat_lt
  apply Nat.div_lt_of_lt_mul
  calc r * 2 ^ 64 + w.toNat < (r + 1) * 2 ^ 64 := by omega
    _ ≤ d * 2 ^ 64 := Nat.mul_le_mul_right _ h

theorem toNat_divModSmall (m : Magnitude) (d : Nat) (hd : 0 < d) :
    (m.divModSmall d).1.toNat = m.toNat / d ∧ (m.divModSmall d).2 = m.toNat % d := by
  induction m with
  | zero => simp [divModSmall, toNat]
  | word low high ih =>
    have hlt : high.toNat % d < d := Nat.mod_lt _ hd
    have hq := quotient_word_lt (high.toNat % d) d low hlt
    have hsplit : low.toNat + 2 ^ 64 * high.toNat =
        (high.toNat % d * 2 ^ 64 + low.toNat) + d * (2 ^ 64 * (high.toNat / d)) := by
      have h := Nat.div_add_mod high.toNat d
      rw [Nat.mul_left_comm]
      omega
    rw [divModSmall]
    dsimp only
    rw [toNat_push, ih.1, ih.2, toNat_ofNat_mod, Nat.mod_eq_of_lt hq, toNat, hsplit,
      Nat.add_mul_div_left _ _ hd, Nat.add_mul_mod_self_left]
    exact ⟨rfl, rfl⟩

theorem modSmall_eq (m : Magnitude) (d : Nat) : m.modSmall d = m.toNat % d := by
  induction m with
  | zero => rw [modSmall, toNat, Nat.zero_mod]
  | word low high ih =>
    rw [modSmall, ih, toNat, Nat.add_mod, Nat.mul_mod, Nat.mod_mod, ← Nat.mul_mod, ← Nat.add_mod,
      Nat.add_comm, Nat.mul_comm]

theorem Normal.high {low : UInt64} {high : Magnitude} (h : (word low high).Normal) :
    high.Normal := by
  cases high with
  | zero => trivial
  | word next rest => exact h

theorem Normal.toNat_word_ne_zero {low : UInt64} {high : Magnitude}
    (h : (word low high).Normal) : (word low high).toNat ≠ 0 := by
  induction high generalizing low with
  | zero =>
    intro hz
    rw [toNat, toNat, Nat.mul_zero, Nat.add_zero] at hz
    exact h (UInt64.toNat_inj.mp (by rw [hz, UInt64.toNat_zero]))
  | word next rest ih =>
    have := @ih next h
    intro hz
    rw [toNat] at hz
    omega

/-- Each number has one normal form. -/
theorem Normal.eq_of_toNat_eq {a b : Magnitude} (ha : a.Normal) (hb : b.Normal)
    (h : a.toNat = b.toNat) : a = b := by
  induction a generalizing b with
  | zero =>
    cases b with
    | zero => rfl
    | word low high => exact absurd h.symm hb.toNat_word_ne_zero
  | word x xs ih =>
    cases b with
    | zero => exact absurd h ha.toNat_word_ne_zero
    | word y ys =>
      have hx := x.toNat_lt
      have hy := y.toNat_lt
      rw [toNat, toNat] at h
      have hlow : x = y := UInt64.toNat_inj.mp (by omega)
      have hhigh : xs = ys := ih ha.high hb.high (by omega)
      rw [hlow, hhigh]

theorem Normal.eq_zero_iff {m : Magnitude} (h : m.Normal) : m = zero ↔ m.toNat = 0 :=
  ⟨fun hm => by rw [hm, toNat], fun hm => h.eq_of_toNat_eq (b := zero) trivial hm⟩

end Signet.Magnitude
