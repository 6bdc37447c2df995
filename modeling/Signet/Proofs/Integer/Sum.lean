import Mathlib
import Signet.Integer.Lemmas

/-! Sums and differences are exact, and no difference of magnitudes borrows from beyond its top word.
What such a difference would lose, a strict one refuses. Main statement: `sums_exact`. -/
namespace Signet

namespace Magnitude

/-- Whether a difference taken word by word still has something to borrow, or to take off, when the
words of the first number are used up. -/
def borrowsOut : Magnitude → Magnitude → Bool → Bool
  | zero, b, borrow => borrow || !b.isZero
  | word x xs, b, borrow =>
    let difference := x - b.lowWord
    borrowsOut xs b.rest (decide (x < b.lowWord) || decide (difference < borrow.toUInt64))

/-- The difference, where nothing leaves the top word. -/
def sub? (a b : Magnitude) : Option Magnitude :=
  if borrowsOut a b false then none else some (a.sub b)

theorem borrowsOut_iff (a b : Magnitude) (borrow : Bool) :
    borrowsOut a b borrow = true ↔ a.toNat < b.toNat + borrow.toNat := by
  induction a generalizing b borrow with
  | zero =>
    have hb := isZero_iff b
    rw [borrowsOut, toNat, Bool.or_eq_true, Bool.not_eq_true', Bool.eq_false_iff, Ne, hb]
    cases borrow <;> simp [Nat.pos_iff_ne_zero]
  | word x xs ih =>
    -- what the words below the next one leave decides the order of the rest
    have h1 := word_sub_borrow x b.lowWord
    have h2 := word_sub_borrow (x - b.lowWord) borrow.toUInt64
    have ht := (x - b.lowWord - borrow.toUInt64).toNat_lt
    have hor := toNat_or_borrow x b.lowWord borrow
    rw [toNat_toUInt64] at h2
    rw [borrowsOut, ih, toNat, toNat_eq_lowWord_add b]
    omega

theorem sub?_eq_none_iff (a b : Magnitude) : a.sub? b = none ↔ a.toNat < b.toNat := by
  rw [sub?, ← Nat.add_zero b.toNat, ← Bool.toNat_false, ← borrowsOut_iff]
  split <;> simp_all

theorem sub?_eq_some {a b : Magnitude} (h : b.toNat ≤ a.toNat) : a.sub? b = some (a.sub b) := by
  have hnone := mt (sub?_eq_none_iff a b).mp (not_lt.mpr h)
  rw [sub?] at hnone ⊢
  split
  · next hborrow => exact absurd (if_pos hborrow) hnone
  · rfl

end Magnitude

namespace Integer

/-- The sum of two signed sizes by strict differences. -/
def addSigned? (aNegative : Bool) (a : Magnitude) (bNegative : Bool) (b : Magnitude) :
    Option Integer :=
  if aNegative == bNegative then some (ofMagnitude aNegative (a.add b))
  else
    match a.compare b with
    | .gt => (a.sub? b).map (ofMagnitude aNegative)
    | .lt => (b.sub? a).map (ofMagnitude bNegative)
    | .eq => some 0

theorem addSigned?_eq (s : Bool) (a : Magnitude) (t : Bool) (b : Magnitude) :
    addSigned? s a t b = some (addSigned s a t b) := by
  have hcompare := Magnitude.compare_eq a b
  rw [addSigned?, addSigned]
  split
  · rfl
  · cases horder : a.compare b with
    | gt =>
      have hlt : b.toNat < a.toNat := Nat.compare_eq_gt.mp (hcompare.symm.trans horder)
      rw [Magnitude.sub?_eq_some hlt.le]
      rfl
    | lt =>
      have hlt : a.toNat < b.toNat := Nat.compare_eq_lt.mp (hcompare.symm.trans horder)
      rw [Magnitude.sub?_eq_some hlt.le]
      rfl
    | eq => rfl

/-- A sum and a difference are the numbers they should be, whatever the signs and the carries, and
come about without a borrow that leaves a top word. -/
theorem sums_exact (a b : Integer) :
    (a + b).toInt = a.toInt + b.toInt ∧ (a - b).toInt = a.toInt - b.toInt ∧ a + b - b = a ∧
      addSigned? a.negative a.magnitude b.negative b.magnitude = some (a + b) ∧
      addSigned? a.negative a.magnitude (!b.negative) b.magnitude = some (a - b) ∧
      ∀ m n : Magnitude, m.sub? n = none ↔ m.toNat < n.toNat := by
  refine ⟨toInt_add a b, toInt_sub a b, ?_, addSigned?_eq _ _ _ _, addSigned?_eq _ _ _ _,
    Magnitude.sub?_eq_none_iff⟩
  rw [← toInt_inj, toInt_sub, toInt_add, add_sub_cancel_right]

end Integer
end Signet
