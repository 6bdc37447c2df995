import Mathlib
import Signet.Proofs.Integer.Inverse

/-! Euclid's loop to the greatest common divisor. Two numbers are rotated: the smaller takes the
place of the larger, and what their division leaves over takes its own. A pass keeps the common
divisors, and the product of the two at least halves, so that the loop ends within the steps
granted. Main statements: `Rotates.dvd_iff` and `Rotates.unique` for a run of the loop,
`Descends.exists_rotates` for its end, and `gcd_greatest` for the result. -/
namespace Signet.Integer

/-- The loop on a larger and a smaller number comes to its end after so many passes, with what is
then in the place of the larger. -/
inductive Rotates : ℕ → Integer → Integer → Integer → Prop where
  | stop {larger smaller : Integer} (h : smaller = 0) : Rotates 0 larger smaller larger
  | pass {passes : ℕ} {larger smaller last : Integer} (h : smaller ≠ 0)
      (hrest : Rotates passes smaller (larger % smaller) last) :
      Rotates (passes + 1) larger smaller last

/-- What holds of the two numbers before each pass. -/
structure Descends (larger smaller : Integer) : Prop where
  pos : 0 < larger.toInt
  nonneg : 0 ≤ smaller.toInt
  le : smaller.toInt ≤ larger.toInt

section Pass

variable {larger smaller : Integer}

theorem isZero_eq_true_iff {x : Integer} : x.isZero = true ↔ x = 0 := beq_iff_eq

theorem toInt_eq_zero_iff {x : Integer} : x.toInt = 0 ↔ x = 0 := by
  rw [← isZero_iff, isZero_eq_true_iff]

theorem Descends.smaller_pos (h : Descends larger smaller) (hne : smaller ≠ 0) :
    0 < smaller.toInt :=
  lt_of_le_of_ne h.nonneg fun hzero => hne (toInt_eq_zero_iff.mp hzero.symm)

theorem Descends.toInt_rest (h : Descends larger smaller) (hne : smaller ≠ 0) :
    (larger % smaller).toInt = larger.toInt % smaller.toInt :=
  toInt_mod larger smaller (h.smaller_pos hne)

theorem Descends.next (h : Descends larger smaller) (hne : smaller ≠ 0) :
    Descends smaller (larger % smaller) where
  pos := h.smaller_pos hne
  nonneg := by
    rw [h.toInt_rest hne]
    exact Int.emod_nonneg _ (h.smaller_pos hne).ne'
  le := by
    rw [h.toInt_rest hne]
    exact (Int.emod_lt_of_pos _ (h.smaller_pos hne)).le

/-- A pass keeps the common divisors. -/
theorem Descends.dvd_next_iff (h : Descends larger smaller) (hne : smaller ≠ 0) (d : ℤ) :
    d ∣ smaller.toInt ∧ d ∣ (larger % smaller).toInt ↔ d ∣ larger.toInt ∧ d ∣ smaller.toInt := by
  rw [h.toInt_rest hne, and_comm]
  apply and_congr_left
  intro hd
  exact EuclideanDomain.dvd_mod_iff hd

/-- A pass at least halves the product of the two numbers. -/
theorem Descends.mul_next_lt (h : Descends larger smaller) (hne : smaller ≠ 0) {steps : ℕ}
    (hsteps : larger.toInt * smaller.toInt < 2 ^ (steps + 1)) :
    smaller.toInt * (larger % smaller).toInt < 2 ^ steps := by
  have hhalf := two_mul_rest_le (h.smaller_pos hne) h.le
  rw [pow_succ] at hsteps
  rw [h.toInt_rest hne]
  linarith

end Pass

section Loop

variable {larger smaller last : Integer} {passes : ℕ}

theorem Rotates.unique (h : Rotates passes larger smaller last) {passes' : ℕ} {last' : Integer}
    (h' : Rotates passes' larger smaller last') : passes = passes' ∧ last = last' := by
  induction h generalizing passes' with
  | stop hzero =>
    cases h' with
    | stop => exact ⟨rfl, rfl⟩
    | pass hne => exact absurd hzero hne
  | pass hne _ ih =>
    cases h' with
    | stop hzero => exact absurd hzero hne
    | pass _ hrest =>
      obtain ⟨rfl, rfl⟩ := ih hrest
      exact ⟨rfl, rfl⟩

/-- What the loop ends with is positive, and its divisors are the common divisors from before. -/
theorem Rotates.dvd_iff (h : Rotates passes larger smaller last)
    (hdescends : Descends larger smaller) :
    0 < last.toInt ∧ ∀ d : ℤ, d ∣ last.toInt ↔ d ∣ larger.toInt ∧ d ∣ smaller.toInt := by
  -- each pass keeps the set of common divisors, and everything divides zero in the end
  induction h with
  | stop hzero =>
    refine ⟨hdescends.pos, fun d => ?_⟩
    rw [toInt_eq_zero_iff.mpr hzero]
    exact (and_iff_left (dvd_zero d)).symm
  | pass hne _ ih =>
    obtain ⟨hpos, hdivisors⟩ := ih (hdescends.next hne)
    exact ⟨hpos, fun d => (hdivisors d).trans (hdescends.dvd_next_iff hne d)⟩

/-- The loop ends within steps for which the product of the two numbers is small enough. -/
theorem Descends.exists_rotates (h : Descends larger smaller) {steps : ℕ}
    (hsteps : larger.toInt * smaller.toInt < 2 ^ steps) :
    ∃ passes ≤ steps, Rotates passes larger smaller (gcdDown steps larger smaller) := by
  induction steps generalizing larger smaller with
  | zero =>
    -- a product below one is zero, and the larger number is not
    have hzero : smaller = 0 := by
      by_contra hne
      have := mul_pos h.pos (h.smaller_pos hne)
      rw [pow_zero] at hsteps
      omega
    exact ⟨0, le_rfl, .stop hzero⟩
  | succ steps ih =>
    rw [gcdDown]
    by_cases hzero : smaller = 0
    · rw [if_pos (isZero_eq_true_iff.mpr hzero)]
      exact ⟨0, Nat.zero_le _, .stop hzero⟩
    · obtain ⟨passes, hle, hrest⟩ := ih (h.next hzero) (h.mul_next_lt hzero hsteps)
      rw [if_neg (mt isZero_eq_true_iff.mp hzero)]
      exact ⟨passes + 1, Nat.succ_le_succ hle, .pass hzero hrest⟩

end Loop

section Start

variable {a b : Integer}

/-- The absolute values, the larger one first. -/
def sizes (a b : Integer) : Integer × Integer :=
  if b.abs ≤ a.abs then (a.abs, b.abs) else (b.abs, a.abs)

theorem toInt_abs_pos (ha : a ≠ 0) : 0 < a.abs.toInt := by
  rw [toInt_abs]
  exact_mod_cast Int.natAbs_pos.mpr (mt toInt_eq_zero_iff.mp ha)

theorem dvd_abs_iff (d : ℤ) : d ∣ a.abs.toInt ↔ d ∣ a.toInt := by
  rw [toInt_abs, Int.dvd_natAbs]

theorem descends_sizes (ha : a ≠ 0) (hb : b ≠ 0) : Descends (sizes a b).1 (sizes a b).2 := by
  have hapos := toInt_abs_pos ha
  have hbpos := toInt_abs_pos hb
  rw [sizes]
  split
  · next hle => exact ⟨hapos, hbpos.le, le_iff.mp hle⟩
  · next hlt => exact ⟨hbpos, hapos.le, (not_le.mp (mt le_iff.mpr hlt)).le⟩

theorem dvd_sizes_iff (a b : Integer) (d : ℤ) :
    d ∣ (sizes a b).1.toInt ∧ d ∣ (sizes a b).2.toInt ↔ d ∣ a.toInt ∧ d ∣ b.toInt := by
  rw [sizes]
  split
  · rw [dvd_abs_iff, dvd_abs_iff]
  · rw [dvd_abs_iff, dvd_abs_iff, and_comm]

theorem gcd_of_zero (h : a = 0 ∨ b = 0) : gcd a b = .error .invalidParameter := by
  rw [gcd, if_pos]
  simpa only [Bool.or_eq_true, isZero_eq_true_iff] using h

theorem gcd_of_ne_zero (ha : a ≠ 0) (hb : b ≠ 0) :
    gcd a b = .ok (gcdDown (sizes a b).1.euclidSteps (sizes a b).1 (sizes a b).2) := by
  rw [gcd, if_neg, sizes]
  · dsimp only
    split <;> rfl
  · simpa only [Bool.or_eq_true, isZero_eq_true_iff, not_or] using ⟨ha, hb⟩

/-- The loop is run to its end. -/
theorem exists_rotates_sizes (ha : a ≠ 0) (hb : b ≠ 0) :
    ∃ g passes, passes ≤ (sizes a b).1.euclidSteps ∧ gcd a b = .ok g ∧
      Rotates passes (sizes a b).1 (sizes a b).2 g := by
  have hdescends := descends_sizes ha hb
  have hsmaller : 0 < (sizes a b).2.toInt := by
    rw [sizes]
    split
    · exact toInt_abs_pos hb
    · exact toInt_abs_pos ha
  obtain ⟨passes, hle, hrotates⟩ :=
    hdescends.exists_rotates (mul_lt_two_pow_euclidSteps _ _ hsmaller hdescends.le)
  exact ⟨_, passes, hle, gcd_of_ne_zero ha hb, hrotates⟩

theorem exists_gcd (ha : a ≠ 0) (hb : b ≠ 0) :
    ∃ g, gcd a b = .ok g ∧ 0 < g.toInt ∧ ∀ d : ℤ, d ∣ g.toInt ↔ d ∣ a.toInt ∧ d ∣ b.toInt := by
  obtain ⟨g, passes, -, hg, hrotates⟩ := exists_rotates_sizes ha hb
  obtain ⟨hpos, hdivisors⟩ := hrotates.dvd_iff (descends_sizes ha hb)
  exact ⟨g, hg, hpos, fun d => (hdivisors d).trans (dvd_sizes_iff a b d)⟩

/-- The order of the two numbers does not matter. -/
theorem gcd_comm (a b : Integer) : gcd a b = gcd b a := by
  by_cases hzero : a = 0 ∨ b = 0
  · rw [gcd_of_zero hzero, gcd_of_zero hzero.symm]
  · obtain ⟨ha, hb⟩ := not_or.mp hzero
    obtain ⟨g, hg, hpos, hdivisors⟩ := exists_gcd ha hb
    obtain ⟨g', hg', hpos', hdivisors'⟩ := exists_gcd hb ha
    have hsame : g.toInt = g'.toInt := by
      apply Int.dvd_antisymm hpos.le hpos'.le
      · exact (hdivisors' _).mpr ((hdivisors _).mp dvd_rfl).symm
      · exact (hdivisors _).mpr ((hdivisors' _).mp dvd_rfl).symm
    rw [hg, hg', toInt_inj.mp hsame]

end Start

/-- Two numbers other than zero, of any signs and in either order, have their greatest common
divisor as the result: it is positive, divides both, and every common divisor divides it. With a
zero there is none. The loop has one run, which ends within the steps granted. -/
theorem gcd_greatest (a b : Integer) :
    (a = 0 ∨ b = 0 → gcd a b = .error .invalidParameter) ∧
      (a ≠ 0 → b ≠ 0 → ∃ g, gcd a b = .ok g ∧ gcd b a = .ok g ∧ 0 < g.toInt ∧
        g.toInt ∣ a.toInt ∧ g.toInt ∣ b.toInt ∧
        (∀ d : ℤ, d ∣ a.toInt → d ∣ b.toInt → d ∣ g.toInt) ∧
        ∃ passes ≤ (sizes a b).1.euclidSteps, ∀ n last,
          Rotates n (sizes a b).1 (sizes a b).2 last ↔ n = passes ∧ last = g) := by
  refine ⟨gcd_of_zero, fun ha hb => ?_⟩
  obtain ⟨g, passes, hle, hg, hrotates⟩ := exists_rotates_sizes ha hb
  obtain ⟨hpos, hdivisors⟩ := hrotates.dvd_iff (descends_sizes ha hb)
  have hcommon (d : ℤ) : d ∣ g.toInt ↔ d ∣ a.toInt ∧ d ∣ b.toInt :=
    (hdivisors d).trans (dvd_sizes_iff a b d)
  obtain ⟨hdvda, hdvdb⟩ := (hcommon g.toInt).mp dvd_rfl
  refine ⟨g, hg, (gcd_comm b a).trans hg, hpos, hdvda, hdvdb,
    fun d hda hdb => (hcommon d).mpr ⟨hda, hdb⟩, passes, hle, fun n last => ⟨fun h => ?_, ?_⟩⟩
  · exact h.unique hrotates
  · rintro ⟨rfl, rfl⟩
    exact hrotates

/-- A negative number and a smaller size in front, and a zero. -/
theorem gcd_greatest_sample :
    (∃ g, gcd (ofInt64 (-12)) (ofInt64 18) = .ok g ∧ g = ofInt64 6 ∧
      g.toInt ∣ (ofInt64 (-12)).toInt ∧ g.toInt ∣ (ofInt64 18).toInt ∧
      ∃ passes ≤ (sizes (ofInt64 (-12)) (ofInt64 18)).1.euclidSteps,
        Rotates passes (sizes (ofInt64 (-12)) (ofInt64 18)).1 (sizes (ofInt64 (-12)) (ofInt64 18)).2
          g) ∧
      gcd 0 (ofInt64 5) = .error .invalidParameter := by
  obtain ⟨g, hg, -, hpos, hfirst, hsecond, hgreatest, passes, hle, hrun⟩ :=
    (gcd_greatest (ofInt64 (-12)) (ofInt64 18)).2 (by decide) (by decide)
  have hsix : (6 : ℤ) ∣ g.toInt := hgreatest 6 (by decide) (by decide)
  refine ⟨⟨g, hg, ?_, hfirst, hsecond, passes, hle, (hrun passes g).mpr ⟨rfl, rfl⟩⟩,
    (gcd_greatest 0 (ofInt64 5)).1 (.inl rfl)⟩
  -- a divisor of both divides their sum
  have hsum : g.toInt ∣ 6 := by
    have := dvd_add hfirst hsecond
    rwa [show (ofInt64 (-12)).toInt + (ofInt64 18).toInt = 6 by decide] at this
  rw [← toInt_inj, show (ofInt64 6).toInt = 6 by decide]
  exact Int.dvd_antisymm hpos.le (by decide) hsum hsix

end Signet.Integer
