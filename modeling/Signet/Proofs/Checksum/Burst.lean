import Mathlib
import Signet.Proofs.Checksum.Serial

/-! Two messages of one length that differ inside a window of four bytes never have one checksum. Up
to the window the registers are one. The digits of the window are no more than a register has, so that
each choice of them leaves another register; and from there on nothing that the messages share brings
two registers together. Main statements: `foldl_stepDigit_ne` and `Burst.ofBytes_ne`. -/
namespace Signet

/-- Two byte strings of one length that differ, and only at places inside a window of four bytes. -/
structure Burst (a b : Bytes) : Prop where
  length_eq : a.length = b.length
  ne : a ≠ b
  within : ∃ start, ∀ i, a[i]? ≠ b[i]? → start ≤ i ∧ i < start + 4

/-- A single byte that is changed. -/
theorem Burst.set {bytes : Bytes} {place : ℕ} {b : UInt8} (hplace : place < bytes.length)
    (hne : bytes[place]? ≠ some b) : Burst bytes (bytes.set place b) := by
  have hset : (bytes.set place b)[place]? = some b := List.getElem?_set_self hplace
  refine ⟨List.length_set.symm, fun hequal => hne (hequal ▸ hset), place, ?_⟩
  intro i hi
  obtain rfl : i = place := by
    by_contra hother
    exact hi (List.getElem?_set_ne (Ne.symm hother)).symm
  omega

/-- What stands before the window and behind it is the same. -/
theorem Burst.exists_window {a b : Bytes} (h : Burst a b) :
    ∃ front window window' back : Bytes, a = front ++ (window ++ back) ∧
      b = front ++ (window' ++ back) ∧ window.length = window'.length ∧ window.length ≤ 4 ∧
        window ≠ window' := by
  obtain ⟨start, hwithin⟩ := h.within
  have hlength := h.length_eq
  have hsplit (bytes : Bytes) : bytes = bytes.take start ++
      ((bytes.drop start).take 4 ++ bytes.drop (start + 4)) := by
    rw [← List.drop_drop, List.take_append_drop, List.take_append_drop]
  -- where the two differ is neither before the window nor behind it
  have hfront : a.take start = b.take start := by
    apply List.ext_getElem?
    intro i
    rw [List.getElem?_take, List.getElem?_take]
    split
    · next hi =>
      by_contra hne
      exact absurd (hwithin i hne).1 (not_le.mpr hi)
    · rfl
  have hback : a.drop (start + 4) = b.drop (start + 4) := by
    apply List.ext_getElem?
    intro i
    rw [List.getElem?_drop, List.getElem?_drop]
    by_contra hne
    exact absurd (hwithin _ hne).2 (not_lt.mpr (Nat.le_add_right _ _))
  refine ⟨a.take start, (a.drop start).take 4, (b.drop start).take 4, a.drop (start + 4),
    hsplit a, ?_, ?_, List.length_take_le _ _, fun hwindow => h.ne ?_⟩
  · rw [hfront, hback]
    exact hsplit b
  · rw [List.length_take, List.length_take, List.length_drop, List.length_drop, hlength]
  · rw [hsplit a, hsplit b, hfront, hback, hwindow]

namespace Crc32

/-- What two messages share keeps two registers apart. -/
theorem foldl_stepDigit_injective (ds : List Bool) :
    Function.Injective fun register => ds.foldl stepDigit register := by
  induction ds with
  | nil => exact fun _ _ h => h
  | cons digit rest ih =>
    intro x y h
    have hstep : stepDigit x digit = stepDigit y digit := ih h
    rw [stepDigit_eq, stepDigit_eq] at hstep
    exact (UInt32.xor_left_inj _).mp (stepBit_injective hstep)

/-- Of no more digits than a register has, each choice leads to another register. -/
theorem foldl_stepDigit_inj {ds es : List Bool} (hlength : ds.length = es.length)
    (h : ds.length ≤ 32) {register : UInt32}
    (hregister : ds.foldl stepDigit register = es.foldl stepDigit register) : ds = es := by
  -- the digits go in as one word, which the steps that follow do not lose
  rw [foldl_stepDigit register h, foldl_stepDigit register (hlength ▸ h), ← hlength] at hregister
  have hsum := stepBit_injective.iterate ds.length hregister
  exact wordOf_inj hlength h ((UInt32.xor_right_inj _).mp hsum)

/-- Messages that differ in a window of at most 32 digits leave different registers. -/
theorem foldl_stepDigit_ne {window window' : List Bool} (hlength : window.length = window'.length)
    (h : window.length ≤ 32) (hne : window ≠ window') (front back : List Bool) (register : UInt32) :
    (front ++ (window ++ back)).foldl stepDigit register ≠
      (front ++ (window' ++ back)).foldl stepDigit register := by
  intro hequal
  simp only [List.foldl_append] at hequal
  -- what stands behind the window is taken off first, and then the window from the same register
  exact hne (foldl_stepDigit_inj hlength h (foldl_stepDigit_injective back hequal))

theorem length_digitsOf (bytes : Bytes) : (digitsOf bytes).length = 8 * bytes.length := by
  induction bytes with
  | nil => rfl
  | cons b rest ih =>
    rw [digitsOf, List.flatMap_cons, List.length_append, length_digits, ← digitsOf, ih,
      List.length_cons]
    ring

theorem digits_injective : Function.Injective digits := by
  intro b c h
  have hword := congrArg wordOf h
  rw [wordOf_digits, wordOf_digits, ← UInt32.toNat_inj, UInt8.toNat_toUInt32,
    UInt8.toNat_toUInt32] at hword
  exact UInt8.toNat_inj.mp hword

theorem digitsOf_injective : Function.Injective digitsOf := by
  intro a b h
  have hlength := congrArg List.length h
  rw [length_digitsOf, length_digitsOf] at hlength
  induction a generalizing b with
  | nil => exact (List.length_eq_zero_iff.mp (by rw [List.length_nil] at hlength; omega)).symm
  | cons x xs ih =>
    cases b with
    | nil => rw [List.length_cons, List.length_nil] at hlength; omega
    | cons y ys =>
      rw [digitsOf, digitsOf, List.flatMap_cons, List.flatMap_cons] at h
      obtain ⟨hfirst, hrest⟩ :=
        List.append_inj h ((length_digits x).trans (length_digits y).symm)
      rw [List.length_cons, List.length_cons] at hlength
      rw [digits_injective hfirst, ih hrest (by omega)]

end Crc32

theorem Burst.ofBytes_ne {a b : Bytes} (h : Burst a b) : Crc32.ofBytes a ≠ Crc32.ofBytes b := by
  obtain ⟨front, window, window', back, rfl, rfl, hlength, hshort, hne⟩ := h.exists_window
  intro hequal
  rw [Crc32.ofBytes, Crc32.ofBytes, Crc32.value, Crc32.value, UInt32.not_inj, Crc32.update,
    Crc32.update, Crc32.foldl_stepByte, Crc32.foldl_stepByte] at hequal
  simp only [Crc32.digitsOf, List.flatMap_append] at hequal
  refine Crc32.foldl_stepDigit_ne ?_ ?_ (Crc32.digitsOf_injective.ne hne) _ _ _ hequal
  · rw [Crc32.length_digitsOf, Crc32.length_digitsOf, hlength]
  · rw [Crc32.length_digitsOf]
    omega

end Signet
