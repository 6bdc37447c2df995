import Mathlib
import Signet.Proofs.Key.Cancellation
import Signet.Proofs.Primality.Loop

/-! The search for a prime comes to the first number that it is after, or there is none in its reach.
What the sieve stops and what the test refuses is all that the loop leaves behind
(`Loop.Clear.not_qualifies`). Main statement: `search_first`. -/
namespace Signet.Primality

/-- What the search is after: a number that no prime of the sieve divides, that is not one above a
multiple of the public exponent, and that the test accepts in the rounds for its size. -/
structure Qualifies (n : ℕ) : Prop where
  no_factor : ∀ q ∈ smallPrimes, ¬ q ∣ n
  not_above : ¬ publicExponent ∣ n - 1
  accepted : ∃ p : Integer, p.toInt = n ∧ isProbablyPrime p 0 = true

theorem isProbablyPrime_iff (p : Integer) (requested : ℕ) :
    isProbablyPrime p requested = true ↔ (test p requested).value = .ok true := by
  obtain ⟨accepted, haccepted⟩ := test_value_eq_ok p requested
  rw [isProbablyPrime, isProbablyPrimeUnder_fst, Monitored.run_fst_eq_value (fun _ _ => rfl),
    haccepted, Except.ok.injEq]

section Start

variable {bits n : ℕ} {start : Integer}

theorem two_pow_le_start (h : start.toInt = ((n ||| 2 ^ (bits - 1)) ||| 2 ^ 0 : ℕ)) :
    2 ^ (bits - 1) ≤ start.toInt := by
  rw [h]
  exact_mod_cast Nat.right_le_or.trans Nat.left_le_or

/-- A number from the start on has the right size as long as it is below the next power of two. -/
theorem bits_eq_iff (hbits : 0 < bits) (hstart : 2 ^ (bits - 1) ≤ start.toInt) {p : Integer} {j : ℕ}
    (hp : p.toInt = start.toInt + j) : p.bits = bits ↔ start.toInt + j < 2 ^ bits := by
  have hle := Integer.bits_le_iff p bits
  have hge := Integer.bits_le_iff p (bits - 1)
  zify at hle hge
  rw [hp, abs_of_nonneg (by have := pow_pos (two_pos (α := ℤ)) (bits - 1); omega)] at hle hge
  constructor
  · intro h
    exact hle.mp (by omega)
  · intro h
    have hwide := mt hge.mp (by omega)
    have hnarrow := hle.mpr h
    omega

end Start

/-- The loop of a search that nobody stops. -/
def Loop.quiet (start : Integer) (bits : ℕ) : Loop Unit :=
  ⟨fun p => test p 0, .idle, start, bits, ()⟩

section Quiet

variable {start : Integer} {bits first : ℕ}

theorem Loop.Tested.isProbablyPrime_eq {j : ℕ} {p : Integer} {accepted : Bool}
    (h : (Loop.quiet start bits).Tested j p accepted) : isProbablyPrime p 0 = accepted := by
  obtain ⟨t, -, hverdict⟩ := h.judged
  have hvalue : (test p 0).value = .ok accepted := by
    rwa [← Monitored.run_fst_eq_value Observer.idle_silent]
  cases accepted with
  | true => exact (isProbablyPrime_iff p 0).mpr hvalue
  | false =>
    rw [Bool.eq_false_iff, Ne, isProbablyPrime_iff, hvalue]
    exact nofun

variable (hfirst : start.toInt = first) (hpos : 0 < first)
include hfirst hpos

theorem not_qualifies_of_stop {j : ℕ}
    (hstop : sievePasses (residues start) j = false) : ¬ Qualifies (first + j) := by
  intro h
  have hpass := (sievePasses_iff hfirst hpos j).mpr ⟨h.no_factor, h.not_above⟩
  rw [hstop] at hpass
  cases hpass

/-- No number that the loop has left behind is one that the search is after. -/
theorem Loop.Clear.not_qualifies {w : Walk} (hw : (Loop.quiet start bits).Clear w) {j : ℕ}
    (hj : j < w.offset) (heven : j % 2 = 0) : ¬ Qualifies (first + j) := by
  cases hpass : sievePasses (residues start) j with
  | false => exact not_qualifies_of_stop hfirst hpos hpass
  | true =>
    obtain ⟨p, hp⟩ := hw.refused j hj heven hpass
    intro h
    obtain ⟨p', hp', haccepted⟩ := h.accepted
    obtain rfl : p' = p := by
      rw [← Integer.toInt_inj, hp', hp.value_eq]
      push_cast
      rw [← hfirst]
      rfl
    rw [hp.isProbablyPrime_eq] at haccepted
    cases haccepted

/-- What the search ends with when nobody stops it. -/
theorem Loop.first_of_ended (hbits : 0 < bits) (hstart : 2 ^ (bits - 1) ≤ start.toInt)
    {result : Except Error Integer}
    (hend : (Moment.ended result).Sound (Loop.quiet start bits)) :
    (∃ k p, result = .ok p ∧ p.toInt = (first + 2 * k : ℕ) ∧ p.bits = bits ∧
        Qualifies (first + 2 * k) ∧ ∀ i < k, ¬ Qualifies (first + 2 * i)) ∨
      (result = .error .searchExhausted ∧
        ∀ k, 2 * k ≤ maxStep → first + 2 * k < 2 ^ bits → ¬ Qualifies (first + 2 * k)) := by
  cases hend with
  | @found w hw hpass p hp =>
    have heven := hw.offset_even
    obtain ⟨k, hk⟩ : ∃ k, w.offset = 2 * k := ⟨w.offset / 2, by omega⟩
    have hvalue : p.toInt = (first + 2 * k : ℕ) := by
      rw [hp.value_eq, hk]
      push_cast
      rw [← hfirst]
      rfl
    obtain ⟨hfactor, habove⟩ := (sievePasses_iff hfirst hpos _).mp hpass
    rw [hk] at hfactor habove
    refine .inl ⟨k, p, rfl, hvalue, hp.bits_eq, ⟨hfactor, habove, p, hvalue, ?_⟩, ?_⟩
    · exact hp.isProbablyPrime_eq
    · intro i hi
      exact hw.not_qualifies hfirst hpos (by omega) (by omega)
  | @usedUp w hw hstop hmax =>
    refine .inr ⟨rfl, fun k hk _ => ?_⟩
    have heven := hw.offset_even
    obtain hlt | heq : 2 * k < w.offset ∨ 2 * k = w.offset := by omega
    · exact hw.not_qualifies hfirst hpos hlt (by omega)
    · rw [heq]
      exact not_qualifies_of_stop hfirst hpos hstop
  | @outgrown w hw hpass p hp hsize =>
    refine .inr ⟨rfl, fun k _ hk => ?_⟩
    have hlarge := mt (bits_eq_iff hbits hstart hp).mpr hsize
    have hlarger : ¬ first + w.offset < 2 ^ bits := by
      change ¬ start.toInt + w.offset < 2 ^ bits at hlarge
      rw [hfirst] at hlarge
      exact_mod_cast hlarge
    exact hw.not_qualifies hfirst hpos (by omega) (by omega)
  | stopped hstop => cases hstop
  | @failed t p e hfail =>
    obtain ⟨accepted, haccepted⟩ := test_value_eq_ok p 0
    have hrun : ((test p 0).run Observer.idle t).1 = .error e := hfail
    rw [Monitored.run_fst_eq_value Observer.idle_silent, haccepted] at hrun
    cases hrun

end Quiet

/-- Under an observer that answers nothing it hears with a stop, a search comes to the first number
from its start on that it is after, which has the right size, or finds its steps used up. In that
case there is no such number of this size in reach of the steps. -/
theorem search_first {bits : ℕ} {seed : Bytes} (hmin : minPrimeBits ≤ bits) (hmul : bits % 8 = 0)
    (hmax : bits ≤ Integer.maxBits) (hlength : bits / 8 ≤ seed.length) {σ : Type}
    (observer : Observer σ) (s : σ)
    (hgoes : ∀ i, ¬ observer.StopsAt s ((search bits seed).heard observer s) i) :
    let first := (Bytes.ofBigEndian (seed.take (bits / 8)) ||| 2 ^ (bits - 1)) ||| 2 ^ 0
    let result := ((search bits seed).run observer s).1
    (∃ k p, result = .ok p ∧ p.toInt = (first + 2 * k : ℕ) ∧ p.bits = bits ∧
        Qualifies (first + 2 * k) ∧ ∀ i < k, ¬ Qualifies (first + 2 * i)) ∨
      (result = .error .searchExhausted ∧
        ∀ k, 2 * k ≤ maxStep → first + 2 * k < 2 ^ bits → ¬ Qualifies (first + 2 * k)) := by
  intro first result
  obtain ⟨start, hstart, hfirst⟩ := searchStart_eq_ok hmin hmul hmax hlength
  have hpos : 0 < first := by
    have := (start_pos_odd hfirst).1
    omega
  have hbits : 0 < bits := lt_of_lt_of_le (by decide) hmin
  -- nothing that this observer says makes a difference, so the idle one may stand in for it
  have hresult : result = ((search bits seed).run Observer.idle ()).1 := by
    rw [Monitored.run_fst_eq_value Observer.idle_silent]
    exact (proper_search bits seed).fst_run_eq_value hgoes
  have hends : (Loop.quiet start bits).EndsAs ((search bits seed).run Observer.idle ()) :=
    Loop.endsAs_search hstart
  rw [hresult]
  exact Loop.first_of_ended hfirst hpos hbits (two_pow_le_start hfirst) hends.sound

theorem qualifies_467 : Qualifies (467 * 2 ^ 247 + 1) := by
  refine ⟨by decide +kernel, by decide +kernel, .ofBytes (KeyRequest.sampleSeed.take 32), ?_, ?_⟩
  · decide +kernel
  · obtain ⟨-, hprime⟩ := KeyRequest.sample_first
    rw [isProbablyPrime_iff]
    exact testWith_of_prime hprime (by decide +kernel) _ 0

/-- A search that starts four steps below a prime: each of the numbers on the way to it has a small
factor. -/
theorem search_first_sample :
    let seed : Bytes := 0xE9 :: 0x7F :: List.replicate 29 0xFF ++ [0xF9]
    (minPrimeBits ≤ 256 ∧ 256 % 8 = 0 ∧ 256 ≤ Integer.maxBits ∧ 256 / 8 ≤ seed.length) ∧
      (∀ i, ¬ Observer.idle.StopsAt () ((search 256 seed).heard .idle ()) i) ∧
      ∃ p, ((search 256 seed).run .idle ()).1 = .ok p ∧ p.toInt = (467 * 2 ^ 247 + 1 : ℕ) := by
  intro seed
  have hvalid : minPrimeBits ≤ 256 ∧ 256 % 8 = 0 ∧ 256 ≤ Integer.maxBits ∧
      256 / 8 ≤ seed.length := by decide
  obtain ⟨hmin, hmul, hmax, hlength⟩ := hvalid
  have hgoes (i : ℕ) : ¬ Observer.idle.StopsAt () ((search 256 seed).heard .idle ()) i := by
    rintro ⟨event, -, -, hstop⟩
    cases hstop
  have hfirst : (Bytes.ofBigEndian (seed.take (256 / 8)) ||| 2 ^ (256 - 1)) ||| 2 ^ 0 =
      467 * 2 ^ 247 - 7 := by decide +kernel
  have hcomposite : ∀ i < 4, ∃ q ∈ smallPrimes, q ∣ 467 * 2 ^ 247 - 7 + 2 * i := by decide +kernel
  refine ⟨⟨hmin, hmul, hmax, hlength⟩, hgoes, ?_⟩
  have hsearch := search_first hmin hmul hmax hlength .idle () hgoes
  dsimp only at hsearch
  rw [hfirst] at hsearch
  rcases hsearch with ⟨k, p, hresult, hp, -, hqualifies, hleast⟩ | ⟨-, hnone⟩
  · refine ⟨p, hresult, ?_⟩
    have hle : k ≤ 4 := not_lt.mp fun hlt => hleast 4 hlt qualifies_467
    have hge : 4 ≤ k := by
      by_contra hlt
      obtain ⟨q, hq, hdvd⟩ := hcomposite k (by omega)
      exact hqualifies.no_factor q hq hdvd
    rw [hp, le_antisymm hle hge]
    norm_num
  · exact absurd qualifies_467 (hnone 4 (by decide) (by decide +kernel))

end Signet.Primality
