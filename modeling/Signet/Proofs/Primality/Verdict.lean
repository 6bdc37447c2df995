import Mathlib
import Signet.Proofs.Primality.Acceptance
import Signet.Proofs.Progress

/-! The verdict on a number under an observer, who can stop the test and do nothing else. Main
statements: `judgedUnder` for any number, and `odd_primes_accepted`. -/
namespace Signet.Primality

open Monitored

theorem Candidate.proper_rounds {hash : Bytes → Block} (c : Candidate) (count index : ℕ)
    (chain : HashChain hash) : (c.rounds count index chain).Proper := by
  induction count generalizing index chain with
  | zero => exact .pure true
  | succ count ih =>
    rw [rounds]
    refine .ask rfl fun _ => ?_
    dsimp only
    split_ifs
    · exact ih ..
    · exact .pure false

theorem proper_testWith (hash : Bytes → Block) (p : Integer) (requested : ℕ) :
    (testWith hash p requested).Proper := by
  rw [testWith]
  split_ifs
  · exact .pure false
  · exact Candidate.proper_rounds ..

theorem proper_test (p : Integer) (requested : ℕ) : (test p requested).Proper :=
  proper_testWith Md5.digest p requested

/-- The test tells of its rounds and of nothing else. -/
theorem events_test (p : Integer) (requested : ℕ) :
    ∀ event ∈ (test p requested).events, ∃ i, event = .round i := by
  by_cases hfit : p.toInt % 2 = 1 ∧ 3 ≤ p.toInt
  · rw [test, testWith_of_fit _ _ hfit.1 hfit.2]
    exact (Candidate.of p).events_rounds _ _ _
  · rw [test, testWith_of_unfit _ _ hfit]
    exact List.forall_mem_nil _

theorem isProbablyPrimeUnder_fst {σ : Type} (observer : Observer σ) (p : Integer) (requested : ℕ)
    (s : σ) :
    (isProbablyPrimeUnder observer p requested s).1 =
      match ((test p requested).run observer s).1 with
      | .ok verdict => verdict
      | .error _ => false := by
  rw [isProbablyPrimeUnder]
  rcases (test p requested).run observer s with ⟨_ | _, _⟩ <;> rfl

/-- What an observer makes of the verdict on a number. -/
structure JudgedUnder {σ : Type} (observer : Observer σ) (s : σ) (p : Integer) (requested : ℕ) :
    Prop where
  heard_round : ∀ event ∈ (test p requested).heard observer s, ∃ i, event = .round i
  false_of_stop : (∃ i, observer.StopsAt s ((test p requested).heard observer s) i) →
    (isProbablyPrimeUnder observer p requested s).1 = false
  eq_of_none : (∀ i, ¬ observer.StopsAt s ((test p requested).heard observer s) i) →
    (isProbablyPrimeUnder observer p requested s).1 = isProbablyPrime p requested

theorem judgedUnder {σ : Type} (observer : Observer σ) (s : σ) (p : Integer) (requested : ℕ) :
    JudgedUnder observer s p requested := by
  have h := (proper_test p requested).cutShort_of_silent Observer.idle_silent () observer s
  constructor
  case heard_round =>
    have hevents := ((proper_test p requested).cutShort observer s).heard_begins
    exact fun event hevent => events_test p requested event (hevents.subset hevent)
  case false_of_stop =>
    intro hstop
    rw [isProbablyPrimeUnder_fst, h.cancelled_iff.mpr hstop]
  case eq_of_none =>
    intro hnone
    rw [isProbablyPrimeUnder_fst, h.result_eq (mt h.cancelled_iff.mp (not_exists.mpr hnone)),
      isProbablyPrime, isProbablyPrimeUnder_fst]
    rfl

/-- An odd prime is accepted in any number of rounds, whatever digest its witnesses are drawn with,
as long as the observer answers nothing that it hears with a stop: every witness there can be lies
between zero and the prime and does not give it away. -/
theorem odd_primes_accepted {p : Integer} {q : ℕ} (hprime : q.Prime) (hodd : q ≠ 2)
    (hp : p.toInt = q) (requested : ℕ) :
    (∀ bytes : Bytes, 0 < (witness p.bits bytes).toInt ∧
        (witness p.bits bytes).toInt < p.toInt ∧
        (Candidate.of p).passes (witness p.bits bytes) = true) ∧
      ∀ {σ : Type} (observer : Observer σ) (s : σ),
        (∀ hash : Bytes → Block,
          (∀ i, ¬ observer.StopsAt s ((testWith hash p requested).heard observer s) i) →
            ((testWith hash p requested).run observer s).1 = .ok true) ∧
        ((∀ i, ¬ observer.StopsAt s ((test p requested).heard observer s) i) →
          (isProbablyPrimeUnder observer p requested s).1 = true) := by
  have hq : p.toInt.toNat.Prime := by rwa [hp, Int.toNat_natCast]
  have hvalue (hash : Bytes → Block) : (testWith hash p requested).value = .ok true := by
    apply testWith_of_prime hq
    have := hprime.eq_two_or_odd.resolve_left hodd
    omega
  constructor
  · intro bytes
    obtain ⟨hpos, hlt⟩ := witness_bounds (one_lt_of_prime hq) bytes
    exact ⟨hpos, hlt, passes_witness_of_prime hq bytes⟩
  · intro σ observer s
    constructor
    · intro hash hgoes
      rw [(proper_testWith hash p requested).fst_run_eq_value hgoes, hvalue]
    · intro hgoes
      rw [isProbablyPrimeUnder_fst, (proper_test p requested).fst_run_eq_value hgoes, test, hvalue]

/-- A prime of seventeen digits under an observer that counts what it hears, and a witness drawn from
no bytes at all. -/
theorem odd_primes_accepted_sample :
    let p := Integer.ofUInt64 65537
    let observer : Observer ℕ := fun heard _ => (false, heard + 1)
    (Nat.Prime 65537 ∧ 65537 ≠ 2 ∧ p.toInt = (65537 : ℕ)) ∧
      (∀ hash : Bytes → Block, ((testWith hash p 6).run observer 0).1 = .ok true) ∧
      (isProbablyPrimeUnder observer p 6 0).1 = true ∧
      (Candidate.of p).passes (witness p.bits []) = true := by
  intro p observer
  have hprime : Nat.Prime 65537 := by norm_num
  have hp : p.toInt = (65537 : ℕ) := by decide
  have hgoes (hash : Bytes → Block) (i : ℕ) :
      ¬ observer.StopsAt 0 ((testWith hash p 6).heard observer 0) i := by
    rintro ⟨event, -, -, hstop⟩
    cases hstop
  obtain ⟨hwitness, hobserver⟩ := odd_primes_accepted hprime (by decide) hp 6
  obtain ⟨hrun, hverdict⟩ := hobserver observer 0
  refine ⟨⟨hprime, by decide, hp⟩, fun hash => hrun hash (hgoes hash), ?_, (hwitness []).2.2⟩
  exact hverdict (hgoes Md5.digest)

end Signet.Primality
