import Mathlib
import Signet.Integer.Lemmas
import Signet.Primality.Test
import Signet.Proofs.HashChain
import Signet.Proofs.Progress

/-! The rounds of the test go on to the first witness that gives the candidate away, or to their
end. Each draws its witness from the chain that the one before has left, so that the fills of one
chain decide everything. A round that is answered with a stop cancels all of them. Main statements:
`Candidate.rounds_outcome`, `Candidate.rounds_cancelled_iff`, and `testWith_of_fit` and
`testWith_of_unfit` for the numbers that come to a round and those that do not. -/
namespace Signet

namespace HashChain

variable {hash : Bytes → Block} (length i : ℕ) (chain : HashChain hash)

/-- The chain when so many bytes were drawn from it for `i` times. -/
def afterFills : HashChain hash :=
  (fun c : HashChain hash => (c.fill length).2)^[i] chain

/-- What is drawn from a chain after `i` other fills of the same length. -/
def fillAt : Bytes := ((chain.afterFills length i).fill length).1

theorem pool_afterFills :
    (chain.afterFills length i).pool = (nextPool hash)^[i * (length ⌈/⌉ 16)] chain.pool := by
  induction i generalizing chain with
  | zero =>
    rw [zero_mul]
    rfl
  | succ i ih =>
    have hfirst : (chain.fill length).2.pool = (nextPool hash)^[length ⌈/⌉ 16] chain.pool := by
      rw [fill_eq]
    rw [Nat.succ_mul, Function.iterate_add_apply, ← hfirst]
    exact ih (chain.fill length).2

/-- The fills of one length are as far apart in the stream as the digests that hold one of them. -/
theorem fillAt_eq :
    chain.fillAt length i =
      stream hash ((nextPool hash)^[i * (length ⌈/⌉ 16)] chain.pool) length := by
  rw [fillAt, fill_eq, pool_afterFills]

end HashChain

namespace Observer

variable {σ : Type} {observer : Observer σ} {s t : σ} {index : ℕ} {stop : Bool}

/-- Whether the observer, having heard of `i` rounds from the one with number `index` on, answers
the next of them with a stop. -/
def stopsRound (observer : Observer σ) (s : σ) (index i : ℕ) : Bool :=
  (observer (observer.after s ((List.range' index i).map .round)) (.round (index + i))).1

theorem stopsRound_zero (hanswer : observer s (.round index) = (stop, t)) :
    observer.stopsRound s index 0 = stop := congrArg Prod.fst hanswer

theorem stopsRound_succ (hanswer : observer s (.round index) = (stop, t)) (i : ℕ) :
    observer.stopsRound s index (i + 1) = observer.stopsRound t (index + 1) i := by
  have hnext : (observer s (.round index)).2 = t := congrArg Prod.snd hanswer
  rw [stopsRound, stopsRound, ← hnext, Nat.add_right_comm]
  rfl

end Observer

namespace Primality

namespace Candidate

variable {hash : Bytes → Block} (c : Candidate) (chain : HashChain hash)

/-- Whether the candidate gets past the witness that the chain gives after `i` others. -/
def PassesAt (i : ℕ) : Prop :=
  c.passes (witness c.p.bits (chain.fillAt ((c.p.bits + 7) / 8) i)) = true

theorem passesAt_zero :
    c.PassesAt chain 0 ↔
      c.passes (witness c.p.bits (chain.fill ((c.p.bits + 7) / 8)).1) = true := Iff.rfl

theorem passesAt_succ (i : ℕ) :
    c.PassesAt chain (i + 1) ↔ c.PassesAt (chain.fill ((c.p.bits + 7) / 8)).2 i := Iff.rfl

/-- Either no witness gives the candidate away and all rounds are told, or one is the first to do
so and its round is the last. -/
theorem rounds_outcome (count index : ℕ) :
    ((∀ i < count, c.PassesAt chain i) ∧ (c.rounds count index chain).value = .ok true ∧
        (c.rounds count index chain).events = (List.range' index count).map .round) ∨
      ∃ i < count, (∀ j < i, c.PassesAt chain j) ∧ ¬ c.PassesAt chain i ∧
        (c.rounds count index chain).value = .ok false ∧
        (c.rounds count index chain).events = (List.range' index (i + 1)).map .round := by
  induction count generalizing index chain with
  | zero => exact .inl ⟨fun i hi => absurd hi i.not_lt_zero, rfl, rfl⟩
  | succ count ih =>
    rw [rounds, Monitored.events, Monitored.value]
    dsimp only
    split_ifs with hfirst
    · -- the other rounds draw from the chain that the first fill leaves
      have hpass {n : ℕ} (h : ∀ i < n, c.PassesAt (chain.fill ((c.p.bits + 7) / 8)).2 i) :
          ∀ i < n + 1, c.PassesAt chain i := by
        intro i hi
        cases i with
        | zero => exact (c.passesAt_zero chain).mpr hfirst
        | succ i => exact (c.passesAt_succ chain i).mpr (h i (Nat.lt_of_succ_lt_succ hi))
      rcases ih (chain.fill ((c.p.bits + 7) / 8)).2 (index + 1) with
        ⟨hall, hvalue, hevents⟩ | ⟨i, hi, hbefore, hfail, hvalue, hevents⟩
      · refine .inl ⟨hpass hall, hvalue, ?_⟩
        rw [hevents, List.range'_succ, List.map_cons]
      · refine .inr ⟨i + 1, Nat.succ_lt_succ hi, hpass hbefore,
          mt (c.passesAt_succ chain i).mp hfail, hvalue, ?_⟩
        rw [hevents, List.range'_succ (n := i + 1), List.map_cons]
    · exact .inr ⟨0, count.succ_pos, fun j hj => absurd hj j.not_lt_zero, hfirst, rfl, rfl⟩

/-- The rounds are told one by one, and all of them when the verdict is good. -/
theorem exists_rounds_told (count index : ℕ) :
    ∃ told ≤ count, ∃ accepted,
      (c.rounds count index chain).events = (List.range' index told).map .round ∧
        (c.rounds count index chain).value = .ok accepted ∧ (0 < count → 0 < told) ∧
          (accepted = true → told = count) := by
  rcases c.rounds_outcome chain count index with
    ⟨-, hvalue, hevents⟩ | ⟨i, hi, -, -, hvalue, hevents⟩
  · exact ⟨count, le_rfl, true, hevents, hvalue, id, fun _ => rfl⟩
  · exact ⟨i + 1, hi, false, hevents, hvalue, fun _ => i.succ_pos, nofun⟩

theorem rounds_value_eq_ok (count index : ℕ) :
    ∃ accepted, (c.rounds count index chain).value = .ok accepted := by
  obtain ⟨-, -, accepted, -, hvalue, -⟩ := c.exists_rounds_told chain count index
  exact ⟨accepted, hvalue⟩

/-- The rounds tell of nothing else. -/
theorem events_rounds (count index : ℕ) :
    ∀ event ∈ (c.rounds count index chain).events, ∃ i, event = .round i := by
  obtain ⟨told, -, -, hevents, -⟩ := c.exists_rounds_told chain count index
  rw [hevents]
  intro event hevent
  obtain ⟨i, -, rfl⟩ := List.mem_map.mp hevent
  exact ⟨i, rfl⟩

section Run

variable {σ : Type} {observer : Observer σ} {count index : ℕ} {s t : σ}

theorem run_rounds_of_break (hanswer : observer s (.round index) = (true, t)) :
    (c.rounds (count + 1) index chain).run observer s = (.error .cancelled, t) := by
  rw [rounds, Monitored.run_ask, hanswer]
  rfl

theorem run_rounds_of_pass (hanswer : observer s (.round index) = (false, t))
    (hpass : c.PassesAt chain 0) :
    (c.rounds (count + 1) index chain).run observer s =
      (c.rounds count (index + 1) (chain.fill ((c.p.bits + 7) / 8)).2).run observer t := by
  rw [passesAt_zero] at hpass
  rw [rounds, Monitored.run_ask, hanswer, if_neg Bool.false_ne_true]
  dsimp only
  rw [if_pos hpass]

theorem run_rounds_of_fail (hanswer : observer s (.round index) = (false, t))
    (hfail : ¬ c.PassesAt chain 0) :
    (c.rounds (count + 1) index chain).run observer s = (.ok false, t) := by
  rw [passesAt_zero] at hfail
  rw [rounds, Monitored.run_ask, hanswer, if_neg Bool.false_ne_true]
  dsimp only
  rw [if_neg hfail]
  rfl

/-- The rounds come to the one at place `i`: none before it is answered with a stop, and none gives
the candidate away. -/
def ComesTo (observer : Observer σ) (s : σ) (index i : ℕ) : Prop :=
  ∀ j < i, observer.stopsRound s index j = false ∧ c.PassesAt chain j

theorem comesTo_succ {i : ℕ} (hanswer : observer s (.round index) = (false, t)) :
    c.ComesTo chain observer s index (i + 1) ↔
      c.PassesAt chain 0 ∧
        c.ComesTo (chain.fill ((c.p.bits + 7) / 8)).2 observer t (index + 1) i := by
  simp only [ComesTo, Nat.forall_lt_succ_left, Observer.stopsRound_zero hanswer, true_and,
    Observer.stopsRound_succ hanswer, passesAt_succ]

/-- A stop goes up from a round: the rounds are cancelled exactly when one that they come to is
answered with a stop. -/
theorem rounds_cancelled_iff (count index : ℕ) (s : σ) :
    ((c.rounds count index chain).run observer s).1 = .error .cancelled ↔
      ∃ i < count, c.ComesTo chain observer s index i ∧ observer.stopsRound s index i = true := by
  induction count generalizing index chain s with
  | zero => exact iff_of_false nofun fun ⟨i, hi, _⟩ => Nat.not_lt_zero i hi
  | succ count ih =>
    -- the first round, or one of the others, which the observer comes to with what it is then
    rw [Nat.exists_lt_succ_left]
    cases hanswer : observer s (.round index) with
    | mk stop t =>
      have hfirst := Observer.stopsRound_zero hanswer
      cases stop with
      | true =>
        rw [c.run_rounds_of_break chain hanswer]
        exact iff_of_true rfl (.inl ⟨fun _ hj => absurd hj (Nat.not_lt_zero _), hfirst⟩)
      | false =>
        simp only [hfirst, Bool.false_eq_true, and_false, false_or, c.comesTo_succ chain hanswer,
          Observer.stopsRound_succ hanswer]
        by_cases hpass : c.PassesAt chain 0
        · rw [c.run_rounds_of_pass chain hanswer hpass, ih]
          simp only [hpass, true_and]
        · rw [c.run_rounds_of_fail chain hanswer hpass]
          exact iff_of_false nofun fun ⟨i, _, ⟨hfirst, _⟩, _⟩ => hpass hfirst

end Run

end Candidate

section Start

variable {p : Integer} (hash : Bytes → Block) (requested : ℕ)

/-- An odd number from three on is judged by its rounds. -/
theorem testWith_of_fit (hodd : p.toInt % 2 = 1) (hp : 3 ≤ p.toInt) :
    testWith hash p requested =
      (Candidate.of p).rounds (effectiveRounds requested p.bits) 0
        (.ofSalt p.magnitude.toWordBytes : HashChain hash) := by
  have hnegative : p.isNegative = false :=
    Bool.eq_false_iff.mpr (mt (Integer.isNegative_iff p).mp (by omega))
  have heven : p.isEven = false := by
    rw [Integer.isEven, (Integer.isOdd_iff p).mpr hodd]
    rfl
  have hone : p.isOne = false := Bool.eq_false_iff.mpr (mt (Integer.isOne_iff p).mp (by omega))
  rw [testWith, hnegative, heven, hone]
  rfl

/-- The test of such a number is cancelled exactly when a round that it comes to is answered with a
stop. -/
theorem testWith_cancelled_iff (hodd : p.toInt % 2 = 1) (hp : 3 ≤ p.toInt) {σ : Type}
    {observer : Observer σ} {s : σ} :
    ((testWith hash p requested).run observer s).1 = .error .cancelled ↔
      ∃ i < effectiveRounds requested p.bits,
        (Candidate.of p).ComesTo (.ofSalt p.magnitude.toWordBytes : HashChain hash) observer s 0 i ∧
          observer.stopsRound s 0 i = true := by
  rw [testWith_of_fit hash requested hodd hp]
  exact Candidate.rounds_cancelled_iff ..

/-- Any other number is refused without a round. -/
theorem testWith_of_unfit (h : ¬ (p.toInt % 2 = 1 ∧ 3 ≤ p.toInt)) :
    testWith hash p requested = pure false := by
  rw [testWith, if_pos]
  rw [Bool.or_eq_true, Bool.or_eq_true, Integer.isNegative_iff, Integer.isOne_iff, Integer.isEven,
    Bool.not_eq_true', ← Bool.not_eq_true, Integer.isOdd_iff]
  omega

end Start

end Primality
end Signet
