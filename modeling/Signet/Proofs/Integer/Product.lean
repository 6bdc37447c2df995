import Mathlib
import Signet.Proofs.Integer.Rows

/-! Products are exact. The written multiplication under them is watched as it goes: a strict one has
a register of two words for each sum, a word for each carry and a row of words to write to. It breaks
off where one of these is too small, and where the last carry of a row would overwrite a word that is
not zero. It never does. Main statement: `products_exact`. -/
namespace Signet

namespace Magnitude

/-- The word at a place, where the row reaches to it. -/
def wordAt? : Magnitude → ℕ → Option UInt64
  | zero, _ => none
  | word low _, 0 => some low
  | word _ high, place + 1 => high.wordAt? place

/-- Adds `x` times a row and a carry to the words from a place on, where every sum and every carry
has to be in range. The word above the row has to be there and be zero. -/
def mulInto? (x : UInt64) : Magnitude → Magnitude → ℕ → Option Magnitude
  | _, zero, _ => none
  | zero, word above rest, carry =>
    if carry < 2 ^ 64 ∧ above = 0 then some (word (UInt64.ofNat carry) rest) else none
  | word y ys, word low rest, carry =>
    let sum := x.toNat * y.toNat + low.toNat + carry
    if carry < 2 ^ 64 ∧ sum < 2 ^ 128 then
      (mulInto? x ys rest (sum >>> 64)).map (word (UInt64.ofNat sum))
    else none

/-- One strict row for each word of the first number, each a place above the one before. -/
def mulRowsInto? : Magnitude → Magnitude → Magnitude → Option Magnitude
  | zero, _, out => some out
  | word x xs, b, out =>
    match mulInto? x b out 0 with
    | some (word low rest) => (mulRowsInto? xs b rest).map (word low)
    | _ => none

/-- The product, where all of its rows stay in range. -/
def productRow? (a b : Magnitude) : Option Magnitude :=
  if a.isEmpty || b.isEmpty then some zero
  else (mulRowsInto? a b (zerosBelow (a.wordCount + b.wordCount) zero)).map trim

section Places

variable (m : Magnitude) (place : ℕ)

theorem wordAt?_rest : m.rest.wordAt? place = m.wordAt? (place + 1) := by
  cases m <;> rfl

theorem wordAt?_zerosBelow {count : ℕ} (h : place < count) :
    (zerosBelow count m).wordAt? place = some 0 := by
  induction count generalizing place with
  | zero => exact absurd h (Nat.not_lt_zero place)
  | succ count ih =>
    cases place with
    | zero => rfl
    | succ place => exact ih place (Nat.lt_of_succ_lt_succ h)

/-- A row leaves the words above its last carry as they are. -/
theorem wordAt?_mulInto (x : UInt64) (b out : Magnitude) (carry : UInt64) :
    (mulInto x b out carry).wordAt? (b.wordCount + 1 + place) =
      out.wordAt? (b.wordCount + 1 + place) := by
  induction b generalizing out carry with
  | zero =>
    rw [mulInto, wordCount, zero_add, add_comm, wordAt?, wordAt?_rest]
  | word y ys ih =>
    rw [mulInto, wordCount, add_right_comm _ 1 place, wordAt?, ih, wordAt?_rest]

end Places

/-- A row stays in range when it starts with a carry of one word and ends below a word that is still
zero. -/
theorem mulInto?_eq_some (x : UInt64) {b out : Magnitude} {carry : ℕ} (hcarry : carry < 2 ^ 64)
    (habove : out.wordAt? b.wordCount = some 0) :
    mulInto? x b out carry = some (mulInto x b out (UInt64.ofNat carry)) := by
  induction b generalizing out carry with
  | zero =>
    cases out with
    | zero => cases habove
    | word above rest =>
      rw [mulInto?, if_pos ⟨hcarry, Option.some.inj habove⟩, mulInto, Magnitude.rest]
  | word y ys ih =>
    cases out with
    | zero => cases habove
    | word low rest =>
      have hsum : x.toNat * y.toNat + low.toNat + carry =
          wordProduct x y low (UInt64.ofNat carry) := by
        rw [wordProduct, toNat_ofNat_mod, Nat.mod_eq_of_lt hcarry]
      have hfits := wordProduct_lt x y low (UInt64.ofNat carry)
      have hnext : wordProduct x y low (UInt64.ofNat carry) >>> 64 < 2 ^ 64 := by
        rw [Nat.shiftRight_eq_div_pow]
        omega
      rw [mulInto?, hsum, if_pos ⟨hcarry, hfits⟩, ih hnext habove, mulInto]
      rfl

/-- The two reasons for which a row breaks off. -/
theorem mulInto?_eq_none_iff (x : UInt64) (b out : Magnitude) (carry : ℕ) :
    mulInto? x b out carry = none ↔ 2 ^ 64 ≤ carry ∨ out.wordAt? b.wordCount ≠ some 0 := by
  constructor
  · intro hnone
    by_contra hgood
    obtain ⟨hcarry, habove⟩ := not_or.mp hgood
    rw [mulInto?_eq_some x (not_le.mp hcarry) (not_not.mp habove)] at hnone
    cases hnone
  · intro hbad
    induction b generalizing out carry with
    | zero =>
      cases out with
      | zero => rfl
      | word above rest =>
        rw [mulInto?, if_neg]
        rintro ⟨hcarry, rfl⟩
        exact hbad.elim (not_le.mpr hcarry) fun h => h rfl
    | word y ys ih =>
      cases out with
      | zero => rfl
      | word low rest =>
        rw [mulInto?]
        split
        · next h =>
          have habove := hbad.resolve_left (not_le.mpr h.1)
          rw [ih _ _ (.inr habove), Option.map_none]
        · rfl

/-- Every row ends below a word that is still zero, as the rows before it end further down. -/
theorem mulRowsInto?_eq_some {a b out : Magnitude}
    (hzero : ∀ i < a.wordCount, out.wordAt? (b.wordCount + i) = some 0) :
    mulRowsInto? a b out = some (mulRowsInto a b out) := by
  induction a generalizing out with
  | zero => rfl
  | word x xs ih =>
    have hrow := mulInto?_eq_some x (Nat.two_pow_pos 64) (hzero 0 (Nat.succ_pos _))
    have hshape : mulInto x b out 0 = word (mulInto x b out 0).lowWord (mulInto x b out 0).rest := by
      cases b <;> rfl
    have hrest : ∀ i < xs.wordCount, (mulInto x b out 0).rest.wordAt? (b.wordCount + i) = some 0 := by
      intro i hi
      rw [wordAt?_rest, add_right_comm, wordAt?_mulInto, add_assoc, add_comm 1]
      exact hzero (i + 1) (Nat.succ_lt_succ hi)
    rw [mulRowsInto?, hrow, show UInt64.ofNat 0 = 0 from rfl, hshape]
    dsimp only
    rw [ih hrest, mulRowsInto]
    rfl

theorem normal_productRow (a b : Magnitude) : (productRow a b).Normal := by
  rw [productRow]
  split
  · trivial
  · exact normal_trim _

theorem productRow?_eq (a b : Magnitude) : productRow? a b = some (productRow a b) := by
  rw [productRow?, productRow]
  split
  · rfl
  · rw [mulRowsInto?_eq_some fun i hi => wordAt?_zerosBelow _ _ (by omega)]
    rfl

end Magnitude

namespace Integer

/-- The words of a product are those that its rows add up to. -/
theorem magnitude_mul (a b : Integer) :
    (a * b).magnitude = a.magnitude.productRow b.magnitude := by
  apply (a * b).normal.eq_of_toNat_eq (Magnitude.normal_productRow _ _)
  rw [toNat_magnitude, toInt_mul, Int.natAbs_mul, ← toNat_magnitude, ← toNat_magnitude,
    Magnitude.toNat_productRow]

/-- A product is the number that it should be, so that the laws of multiplication hold for the data,
and comes about without a sum that leaves two words, a carry that leaves one, or a word that is
overwritten before it counts. -/
theorem products_exact (a b c : Integer) :
    (a * b).toInt = a.toInt * b.toInt ∧
      a * b = b * a ∧ a * b * c = a * (b * c) ∧
      a * (b + c) = a * b + a * c ∧ (a + b) * c = a * c + b * c ∧
      a.magnitude.productRow? b.magnitude = some (a * b).magnitude ∧
      (∀ m n : Magnitude, m.productRow? n = some (m.productRow n) ∧
        (m.productRow n).toNat = m.toNat * n.toNat) ∧
      ∀ (x : UInt64) (m out : Magnitude) (carry : ℕ), m.mulInto? x out carry = none ↔
        2 ^ 64 ≤ carry ∨ out.wordAt? m.wordCount ≠ some 0 := by
  refine ⟨toInt_mul a b, ?_, ?_, ?_, ?_, ?_, ?_, Magnitude.mulInto?_eq_none_iff⟩
  · rw [← toInt_inj, toInt_mul, toInt_mul, mul_comm]
  · rw [← toInt_inj, toInt_mul, toInt_mul, toInt_mul, toInt_mul, mul_assoc]
  · rw [← toInt_inj, toInt_mul, toInt_add, toInt_add, toInt_mul, toInt_mul, mul_add]
  · rw [← toInt_inj, toInt_mul, toInt_add, toInt_add, toInt_mul, toInt_mul, add_mul]
  · rw [Magnitude.productRow?_eq, magnitude_mul]
  · intro m n
    exact ⟨m.productRow?_eq n, m.toNat_productRow n⟩

-- the square of the largest word takes the sums and the carries to their bounds
example :
    (Magnitude.word (-1) .zero).productRow? (.word (-1) .zero) =
      some (.word 1 (.word (-2) .zero)) := by
  decide

end Integer
end Signet
